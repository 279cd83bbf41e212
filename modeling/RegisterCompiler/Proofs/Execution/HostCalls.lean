import RegisterCompiler.Proofs.Execution.Sequences

/-!
# Calls of the host

Around a call of the host the code saves every register on the stack, aligns the stack pointer, and restores every register after
the call. The host may leave any values in the registers that it need not keep, and anything below the stack pointer; nothing of
that is left when the call is over. `HostCall` is a run through such code, with the one call in it and the state at the call.
-/

namespace RegisterCompiler

/-- Whether an instruction is a call. -/
def X64.Instruction.isCall : X64.Instruction → Bool
  | .callRegister _ | .call _ => true
  | _ => false

namespace Machine

open X64 (Instruction Reg Sequence)

section

variable {env : Environment} {s : State} {q : Nat}

/-! ## Saving and restoring registers -/

/-- A push puts a register on the stack, and the stack pointer goes down by eight. -/
theorem does_push (r : Reg) (hrsp : s.get .rsp = UInt64.ofNat (q + 8)) (h : env.Writable q (q + 8)) :
    env.Does (.push r) s (State.set { s with memory := s.memory.setWord q (s.get r) } .rsp (UInt64.ofNat q)) := by
  intro pointer next
  have hpush := Environment.pushWord_eq (s := { s with pointer := pointer }) (w := s.get r) hrsp h
  show (env.pushWord { s with pointer := pointer } (s.get r) >>= _) = _
  rw [hpush]
  rfl

/-- A pop takes a word from the stack into a register, and the stack pointer goes up by eight. -/
theorem does_pop (r : Reg) (hrsp : s.get .rsp = UInt64.ofNat q) (h : env.Writable q (q + 8)) :
    env.Does (.pop r) s ((s.set .rsp (UInt64.ofNat (q + 8))).set r (s.memory.word q)) := by
  intro pointer next
  have hpop := Environment.popWord_eq (s := { s with pointer := pointer }) hrsp h
  show (env.popWord { s with pointer := pointer } >>= _) = _
  rw [hpop]
  rfl

/-- Registers are pushed one below another. -/
theorem performs_pushes (rs : List Reg) (hrs : .rsp ∉ rs) (hrsp : s.get .rsp = UInt64.ofNat (q + 8 * rs.length))
    (h : env.Writable q (q + 8 * rs.length)) :
    ∃ t, Performs env (rs.map .push) s t ∧ t.get .rsp = UInt64.ofNat q ∧ (∀ r, r ≠ .rsp → t.get r = s.get r) ∧
      t.memory.Stacked q (rs.reverse.map s.get) ∧ Memory.AgreesFrom (q + 8 * rs.length) t.memory s.memory := by
  induction rs generalizing s with
  | nil => exact ⟨s, .nil s, hrsp, fun _ _ => rfl, trivial, .refl _ _⟩
  | cons r rest ih =>
    rw [List.length_cons] at hrsp h ⊢
    obtain ⟨hr, hrest⟩ := not_or.1 (fun h' => hrs (List.mem_cons.2 h'))
    have hbound := h.1
    obtain ⟨u, hu⟩ : ∃ u, u = State.set { s with memory := s.memory.setWord (q + 8 * rest.length) (s.get r) } .rsp
      (UInt64.ofNat (q + 8 * rest.length)) := ⟨_, rfl⟩
    have hpush : env.Does (.push r) s u := by
      rw [hu]
      exact does_push r hrsp (h.mono (by omega) (by omega))
    have hget : ∀ x, x ≠ .rsp → u.get x = s.get x := by
      intro x hx
      rw [hu, State.get_set_of_ne _ _ hx, State.get_withMemory]
    have hmemory : u.memory = s.memory.setWord (q + 8 * rest.length) (s.get r) := by rw [hu, State.memory_set]
    have hursp : u.get .rsp = UInt64.ofNat (q + 8 * rest.length) := by rw [hu, State.get_set_self]
    obtain ⟨t, ht, htrsp, htget, hstacked, hagrees⟩ := ih hrest hursp (h.mono (by omega) (by omega))
    refine ⟨t, .cons hpush ht, htrsp, fun x hx => (htget x hx).trans (hget x hx), ?_, ?_⟩
    · rw [List.reverse_cons, List.map_append, Memory.stacked_append]
      have hsame : rest.reverse.map u.get = rest.reverse.map s.get :=
        List.map_congr_left fun x hx => hget x fun hx' => hrest (hx' ▸ List.mem_reverse.1 hx)
      refine ⟨hsame ▸ hstacked, ?_, trivial⟩
      rw [List.length_map, List.length_reverse, hagrees.word (Nat.le_refl _) (by omega), hmemory]
      exact Memory.word_setWord _ _ _
    · refine (hagrees.mono (by omega)).trans ?_
      rw [hmemory]
      exact Memory.agreesFrom_setWord _ _ (by omega) (by omega)

/-- Registers take the words that lie on the stack. -/
theorem performs_pops (rs : List Reg) {ws : List UInt64} (hrs : .rsp ∉ rs) (hnodup : rs.Nodup) (hlength : ws.length = rs.length)
    (hrsp : s.get .rsp = UInt64.ofNat q) (hstacked : s.memory.Stacked q ws) (h : env.Writable q (q + 8 * rs.length)) :
    ∃ t, Performs env (rs.map .pop) s t ∧ t.get .rsp = UInt64.ofNat (q + 8 * rs.length) ∧ rs.map t.get = ws ∧
      (∀ r, r ∉ rs → r ≠ .rsp → t.get r = s.get r) ∧ t.memory = s.memory := by
  induction rs generalizing s q ws with
  | nil =>
    obtain rfl := List.eq_nil_of_length_eq_zero hlength
    exact ⟨s, .nil s, hrsp, rfl, fun _ _ _ => rfl, rfl⟩
  | cons r rest ih =>
    cases ws with
    | nil => cases hlength
    | cons w ws =>
      rw [List.length_cons] at h ⊢
      obtain ⟨hr, hrest⟩ := not_or.1 (fun h' => hrs (List.mem_cons.2 h'))
      obtain ⟨hnotMem, hnodup⟩ := List.nodup_cons.1 hnodup
      obtain ⟨u, hu⟩ : ∃ u, u = (s.set .rsp (UInt64.ofNat (q + 8))).set r w := ⟨_, rfl⟩
      have hpop : env.Does (.pop r) s u := by
        have hpop := does_pop r hrsp (h.mono (Nat.le_refl q) (by omega))
        rwa [hstacked.1, ← hu] at hpop
      have hursp : u.get .rsp = UInt64.ofNat (q + 8) := by
        rw [hu, State.get_set_of_ne _ _ hr, State.get_set_self]
      have humemory : u.memory = s.memory := by rw [hu, State.memory_set, State.memory_set]
      obtain ⟨t, ht, htrsp, htws, htget, htmemory⟩ := ih hrest hnodup (Nat.succ.inj hlength) hursp
        (humemory ▸ hstacked.2) (h.mono (by omega) (by omega))
      refine ⟨t, .cons hpop ht, by rw [htrsp]; congr 1; omega, ?_, fun x hx hxrsp => ?_, htmemory.trans humemory⟩
      · rw [List.map_cons, htws, htget r hnotMem (Ne.symm hr), hu, State.get_set_self]
      · rw [List.mem_cons, not_or] at hx
        rw [htget x hx.2 hxrsp, hu, State.get_set_of_ne _ _ hx.1, State.get_set_of_ne _ _ hxrsp]

/-! ## The call -/

/-- A stack pointer without its low four bits. -/
theorem toNat_align (w : UInt64) : (w &&& wordOfInt32 (-16)).toNat = w.toNat / 16 * 16 := by
  have hmask : w &&& wordOfInt32 (-16) = w >>> 4 <<< 4 := by
    have h : (wordOfInt32 (-16)).toBitVec = BitVec.allOnes 64 <<< 4 := by decide
    have h4 : ((4 : UInt64).toBitVec % 64).toNat = 4 := by decide
    refine UInt64.toBitVec_inj.1 (BitVec.eq_of_getLsbD_eq fun i hi => ?_)
    simp only [UInt64.toBitVec_and, h, UInt64.toBitVec_shiftLeft, UInt64.toBitVec_shiftRight, BitVec.shiftLeft_eq',
      BitVec.ushiftRight_eq', h4, BitVec.getLsbD_and, BitVec.getLsbD_shiftLeft, BitVec.getLsbD_ushiftRight, BitVec.getLsbD_allOnes]
    grind
  have hlt := w.toNat_lt
  rw [hmask, UInt64.toNat_shiftLeft, UInt64.toNat_shiftRight]
  have hfour : UInt64.toNat 4 % 64 = 4 := by decide
  rw [hfour, Nat.shiftLeft_eq, Nat.shiftRight_eq_div_pow]
  omega

/-- A call of a function with the given arguments prints an event and comes back. -/
def Environment.Prints (env : Environment) (function first second : UInt64) (e : Event) : Prop :=
  ∀ u next, u.get .rdi = first → u.get .rsi = second →
    env.callAddress u function next = (env.hostReturn u next).map (.print e)

/-- A call of the host through a register leaves the stack and the frame pointer as they are. -/
theorem step_callRegister {o : Nat} {via : Reg} {e : Event} (hcode : env.InstructionAt o (.callRegister via))
    (hprints : env.Prints (s.get via) (s.get .rdi) (s.get .rsi) e) (haligned : (s.get .rsp).toNat % 16 = 0)
    (hstack : env.inStack (s.get .rsp - 8) = true) :
    ∃ t : State, env.step (s.goto env o) = .ok (.print e (t.goto env (o + (Instruction.callRegister via).size))) ∧
      t.get .rbp = s.get .rbp ∧ t.get .rsp = s.get .rsp ∧ Memory.AgreesFrom (s.get .rsp).toNat t.memory s.memory := by
  obtain ⟨u, hu⟩ : ∃ u, u = s.goto env o := ⟨_, rfl⟩
  have hget : ∀ r, u.get r = s.get r := fun r => by rw [hu]; rfl
  have hkept := env.host.kept u
  have hmod : s.get .rsp % 16 = 0 := by
    refine UInt64.toNat_inj.1 ?_
    rw [UInt64.toNat_mod]
    exact haligned
  have hreturn : env.hostReturn u (env.base + UInt64.ofNat (o + (Instruction.callRegister via).size)) =
      .ok ((env.host.returned u).goto env (o + (Instruction.callRegister via).size)) := by
    unfold Environment.hostReturn
    rw [hget, if_pos ⟨hmod, hstack⟩]
    rfl
  refine ⟨env.host.returned u, ?_, ?_, ?_, ?_⟩
  · rw [hcode.step s, Environment.execute, ← hu]
    rw [hget, hprints u _ (hget _) (hget _), hreturn]
    rfl
  · rw [hkept.registers _ (by decide), hget]
  · rw [hkept.registers _ (by decide), hget]
  · intro a ha hbound
    rw [hkept.memory, hu]
    · rfl
    · rw [hget, UInt64.le_iff_toNat_le, UInt64.toNat_ofNat_of_lt' hbound]
      exact ha

/-- A run with one call in it, of a function of the host: the instructions in front of the call and behind it call nothing, and at
the call the stack pointer is aligned and a register holds the address of the function. -/
structure HostCall (env : Environment) (function : UInt64) (e : Event) (first last : State) where
  before : Sequence
  via : Reg
  /-- The state at the call. -/
  entered : State
  /-- The state that the host returns with. -/
  returned : State
  behind : Sequence
  enter : Trace env before first entered
  fetched : env.fetch entered = .ok (.callRegister via, (Instruction.callRegister via).size)
  called : env.step entered = .ok (.print e returned)
  leave : Trace env behind returned last
  once : ∀ i ∈ before ++ behind, i.isCall = false
  target : entered.get via = function
  aligned : (entered.get .rsp).toNat % 16 = 0

namespace HostCall

variable {function : UInt64} {e : Event} {first last : State}

/-- A host call is a path from its first state to its last one, with its one event. -/
theorem path (call : HostCall env function e first last) :
    Path env (call.before.length + (call.behind.length + 1)) first [e] last :=
  call.enter.path.trans (.print call.called call.leave.path)

/-- A run with one call, and instructions in front of it that call nothing. -/
def after {sequence : Sequence} {start : State} (htrace : Trace env sequence start first) (hcalls : ∀ i ∈ sequence, i.isCall = false)
    (call : HostCall env function e first last) : HostCall env function e start last :=
  { call with
    before := sequence ++ call.before
    enter := htrace.append call.enter
    once := by
      rw [List.append_assoc]
      exact List.forall_mem_append.2 ⟨hcalls, call.once⟩ }

end HostCall

/-- Keeps the stack pointer in the frame pointer and aligns it. -/
def alignStack : Sequence := [.move .rbp .rsp, .aluImmediate .and .rsp (-16)]

/-- Aligning keeps the stack pointer in `rbp` and rounds it down to a multiple of sixteen. -/
theorem performs_align (env : Environment) (s : State) :
    ∃ t, Performs env alignStack s t ∧ t.get .rbp = s.get .rsp ∧ (t.get .rsp).toNat = (s.get .rsp).toNat / 16 * 16 ∧
      (∀ r, r ≠ .rbp → r ≠ .rsp → t.get r = s.get r) ∧ t.memory = s.memory := by
  obtain ⟨u, hu⟩ : ∃ u, u = s.set .rbp (s.get .rsp) := ⟨_, rfl⟩
  have hmove : env.Does (.move .rbp .rsp) s u := by
    rw [hu]
    exact fun _ _ => rfl
  have hop := operates_operate .and .rsp (wordOfInt32 (-16)) u
  have hrsp : u.get .rsp = s.get .rsp := by rw [hu, State.get_set_of_ne _ _ (by decide)]
  refine ⟨_, .cons hmove (.single (does_aluImmediate env .and .rsp (-16) u)), ?_, ?_, fun r hr hr' => ?_, ?_⟩
  · rw [hop.others _ (by decide), hu, State.get_set_self]
  · have hvalue : aluLeaves .and (u.get .rsp) (wordOfInt32 (-16)) = s.get .rsp &&& wordOfInt32 (-16) := by
      rw [hrsp]
      rfl
    rw [hop.value, hvalue, toNat_align]
  · rw [hop.others r hr', hu, State.get_set_of_ne _ _ hr]
  · rw [hop.memory, hu, State.memory_set]

/-- Takes the stack pointer and every register back. -/
def restoreAll : Sequence := .move .rsp .rbp :: X64.popAll

/-- Restoring takes the stack pointer back and then every register that was saved. -/
theorem performs_restore {ws : List UInt64} (hrbp : s.get .rbp = UInt64.ofNat q) (hlength : ws.length = Reg.saved.length)
    (hstacked : s.memory.Stacked q ws) (h : env.Writable q (q + 8 * Reg.saved.length)) :
    ∃ t, Performs env restoreAll s t ∧ t.get .rsp = UInt64.ofNat (q + 8 * Reg.saved.length) ∧
      Reg.saved.reverse.map t.get = ws ∧ t.memory = s.memory := by
  obtain ⟨u, hu⟩ : ∃ u, u = s.set .rsp (s.get .rbp) := ⟨_, rfl⟩
  have hmove : env.Does (.move .rsp .rbp) s u := by
    rw [hu]
    exact fun _ _ => rfl
  have hursp : u.get .rsp = UInt64.ofNat q := by rw [hu, State.get_set_self, hrbp]
  have humemory : u.memory = s.memory := by rw [hu, State.memory_set]
  obtain ⟨t, ht, htrsp, hws, _, htmemory⟩ := performs_pops Reg.saved.reverse (by decide) (by decide)
    (by rw [hlength, List.length_reverse]) hursp (humemory ▸ hstacked) (by rw [List.length_reverse]; exact h)
  rw [List.length_reverse] at htrsp
  exact ⟨t, .cons hmove ht, htrsp, hws, htmemory.trans humemory⟩

/-- The end of a host call is the alignment, the call, and the restoring of the registers. -/
theorem leaveHost_eq (via : Reg) : leaveHost via = alignStack ++ .callRegister via :: restoreAll := rfl

/-- The code behind the arguments of a host call calls the host, and restores the registers that are saved. -/
theorem hostCall_leaveHost {o : Nat} {via : Reg} {function : UInt64} {e : Event} {ws : List UInt64} (hrbp : via ≠ .rbp)
    (hvia : via ≠ .rsp) (hrsp : s.get .rsp = UInt64.ofNat q) (hlow : 8 ≤ q / 16 * 16) (hbound : q < 2 ^ 64)
    (h : env.Writable (q / 16 * 16 - 8) (q + 8 * Reg.saved.length)) (hlength : ws.length = Reg.saved.length)
    (hstacked : s.memory.Stacked q ws) (hfunction : s.get via = function)
    (hprints : env.Prints function (s.get .rdi) (s.get .rsi) e) (hcode : env.CodeAt o (plainPieces (leaveHost via))) :
    ∃ t : State, ∃ call : HostCall env function e (s.goto env o) (t.goto env (o + sequenceSize (leaveHost via))),
      (∀ r, r ≠ .rbp → r ≠ .rsp → call.entered.get r = s.get r) ∧ t.get .rsp = UInt64.ofNat (q + 8 * Reg.saved.length) ∧
      Reg.saved.reverse.map t.get = ws ∧ Memory.AgreesFrom q t.memory s.memory := by
  rw [leaveHost_eq, plainPieces, List.map_append, List.map_cons] at hcode
  obtain ⟨halignCode, hrest⟩ := Environment.codeAt_append.1 hcode
  obtain ⟨hcallCode, hrestoreCode⟩ := Environment.codeAt_cons.1 hrest
  have hsize : piecesSize (alignStack.map Piece.plain) = sequenceSize alignStack := piecesSize_plainPieces _
  rw [hsize] at hcallCode hrestoreCode
  have hcallAt : env.InstructionAt (o + sequenceSize alignStack) (.callRegister via) := hcallCode.2
  obtain ⟨t, halign, htrbp, htrsp, htget, htmemory⟩ := performs_align env s
  rw [hrsp, UInt64.toNat_ofNat_of_lt' hbound] at htrsp
  -- the host function's return address lies right below the aligned stack pointer
  have hstack : env.inStack (t.get .rsp - 8) = true := by
    have htop : t.get .rsp - 8 = UInt64.ofNat (q / 16 * 16 - 8) := by
      have hle : (8 : UInt64) ≤ t.get .rsp := by
        rw [UInt64.le_iff_toNat_le, htrsp]
        exact hlow
      rw [← UInt64.toNat_inj, UInt64.toNat_sub_of_le _ _ hle, htrsp, UInt64.toNat_ofNat_of_lt' (show _ < 2 ^ 64 by omega)]
      rfl
    rw [htop]
    exact (h.2 _ (by omega) (by omega)).2
  rw [← htget via hrbp hvia] at hfunction
  rw [← hfunction, ← htget .rdi (by decide) (by decide), ← htget .rsi (by decide) (by decide)] at hprints
  obtain ⟨u, hcall, hurbp, _, humemory⟩ := step_callRegister hcallAt hprints (by omega) hstack
  rw [htrsp, htmemory] at humemory
  have hagrees := humemory.mono (show q / 16 * 16 ≤ q by omega)
  have hbound' := h.1
  obtain ⟨v, hrestore, hvrsp, hws, hvmemory⟩ := performs_restore (by rw [hurbp, htrbp, hrsp]) hlength
    (hagrees.stacked (by rw [hlength]; exact hbound') hstacked) (h.mono (by omega) (Nat.le_refl _))
  have hleave := hrestore.trace hrestoreCode
  rw [leaveHost_eq, sequenceSize_append, sequenceSize_cons, ← Nat.add_assoc, ← Nat.add_assoc]
  refine ⟨v, ⟨alignStack, via, t.goto env _, _, restoreAll, halign.trace halignCode, hcallAt.fetch t, hcall, hleave, ?_, ?_, ?_⟩,
    htget, hvrsp, hws, hvmemory ▸ hagrees⟩
  · decide
  · exact hfunction
  · rw [State.get_goto, htrsp]
    omega

/-! ## Whole calls -/

/-- The number of bytes that a call of the host takes below a position of the stack pointer: all registers, what the alignment skips,
and the address that the host returns to. -/
def callDepth (p : Nat) : Nat := 8 * Reg.saved.length + (p + 8) % 16 + 8

/-- A host call needs 128 bytes and what the alignment takes. -/
theorem callDepth_eq (p : Nat) : callDepth p = 128 + (p + 8) % 16 := by
  have hlength : 8 * Reg.saved.length = 120 := rfl
  unfold callDepth
  omega

/-- A host call fits the reserve of the stack. -/
theorem callDepth_le_reserve (p : Nat) : callDepth p ≤ reserve := by
  have hreserve : reserve = 144 := rfl
  rw [callDepth_eq]
  omega

variable {p : Nat} {t : State}

/-- There is room for a call of the host below the position of the stack pointer. -/
structure Environment.CallRoom (env : Environment) (p : Nat) (s : State) : Prop where
  room : env.RoomAt (callDepth p) p s
  bound : p < 2 ^ 64

/-- A state with the whole reserve has room for a host call. -/
theorem Environment.Ready.callRoom (h : env.Ready p s) : env.CallRoom p s := ⟨h.roomAt (callDepth_le_reserve p), h.bound⟩

namespace Environment.CallRoom

/-- The stack pointer is at its position, as a number. -/
theorem toNat (h : env.CallRoom p s) : (s.get .rsp).toNat = p := by
  rw [h.room.pointer, UInt64.toNat_ofNat_of_lt' h.bound]

/-- There are as many bytes below the stack pointer as a host call needs. -/
theorem saved_le (h : env.CallRoom p s) : 128 + (p + 8) % 16 ≤ p := callDepth_eq p ▸ h.room.depth_le

/-- All registers, and below the alignment behind them the return address, lie in the stack. -/
theorem writable (h : env.CallRoom p s) : env.Writable ((p - 8 * Reg.saved.length) / 16 * 16 - 8) p := by
  have hsaved : 8 * Reg.saved.length = 120 := rfl
  have hle := h.saved_le
  have hdepth := callDepth_eq p
  exact ⟨h.bound.le, h.room.mapped.mono (by omega) (Nat.le_refl p)⟩

end Environment.CallRoom

/-- Inside a call of the host: every register lies saved below a position, and nothing from there on has changed. -/
structure Inside (p : Nat) (s t : State) : Prop where
  pointer : t.get .rsp = UInt64.ofNat (p - 8 * Reg.saved.length)
  stacked : t.memory.Stacked (p - 8 * Reg.saved.length) (Reg.saved.reverse.map s.get)
  memory : Memory.AgreesFrom p t.memory s.memory

/-- Setting a register other than the stack pointer stays inside a host call. -/
theorem Inside.set (h : Inside p s t) {r : Reg} (hr : r ≠ .rsp) (w : UInt64) : Inside p s (t.set r w) :=
  ⟨(State.get_set_of_ne _ _ hr.symm).trans h.pointer, h.stacked, h.memory⟩

/-- The start of a host call does not call. -/
theorem isCall_enterHost (function : UInt64) (via : Reg) : ∀ i ∈ enterHost function via, i.isCall = false := by
  have hpush : ∀ i ∈ X64.pushAll, i.isCall = false := by decide
  exact List.forall_mem_append.2 ⟨hpush, List.forall_mem_singleton.2 rfl⟩

/-- The start of a host call saves the registers, sets the one for the address, and changes no other one. -/
theorem performs_enterHost (h : env.CallRoom p s) (function : UInt64) {via : Reg} (hvia : via ≠ .rsp) :
    ∃ t, Performs env (enterHost function via) s t ∧ Inside p s t ∧ t.get via = function ∧
      ∀ r, r ≠ via → r ≠ .rsp → t.get r = s.get r := by
  have hsaved : 8 * Reg.saved.length = 120 := rfl
  have hle := h.saved_le
  have hp : p - 8 * Reg.saved.length + 8 * Reg.saved.length = p := by omega
  obtain ⟨t, ht, htrsp, htget, hstacked, hmemory⟩ := performs_pushes (q := p - 8 * Reg.saved.length) Reg.saved (by decide)
    (by rw [hp]; exact h.room.pointer) (by rw [hp]; exact h.writable.mono (by omega) (Nat.le_refl p))
  rw [hp] at hmemory
  have hinside : Inside p s t := ⟨htrsp, hstacked, hmemory⟩
  refine ⟨t.set via function, ht.append (.single fun _ _ => rfl), hinside.set hvia _, State.get_set_self _ _ _, fun r hr hr' => ?_⟩
  rw [State.get_set_of_ne _ _ hr, htget r hr']

/-- Behind a call of the host everything is as before it. -/
theorem hostCall_inside {o : Nat} {via : Reg} {function : UInt64} {e : Event} (h : env.CallRoom p s) (hinside : Inside p s t)
    (hrbp : via ≠ .rbp) (hvia : via ≠ .rsp) (hfunction : t.get via = function)
    (hprints : env.Prints function (t.get .rdi) (t.get .rsi) e) (hcode : env.CodeAt o (plainPieces (leaveHost via))) :
    ∃ u : State, ∃ call : HostCall env function e (t.goto env o) (u.goto env (o + sequenceSize (leaveHost via))),
      (∀ r, r ≠ .rbp → r ≠ .rsp → call.entered.get r = t.get r) ∧ Keeps s u := by
  have hsaved : 8 * Reg.saved.length = 120 := rfl
  have hle := h.saved_le
  have hbound := h.bound
  have hp : p - 8 * Reg.saved.length + 8 * Reg.saved.length = p := by omega
  obtain ⟨u, call, hentered, hrsp, hws, hmemory⟩ := hostCall_leaveHost hrbp hvia hinside.pointer (by omega) (by omega)
    (by rw [hp]; exact h.writable) (by simp) hinside.stacked hfunction hprints hcode
  rw [hp] at hrsp
  refine ⟨u, call, hentered, fun r => ?_, ?_⟩
  · by_cases hr : r = .rsp
    · rw [hr, hrsp, h.room.pointer]
    · rw [List.map_inj_left] at hws
      exact hws r (List.mem_reverse.2 ((Reg.mem_saved_iff r).2 hr))
  · rw [h.toNat]
    exact (hmemory.mono (by omega)).trans hinside.memory

/-! ## Values -/

/-- The host prints the number in its first argument. -/
theorem prints_integer (env : Environment) (first second : UInt64) :
    env.Prints env.host.intrinsics.printInteger first second (.integer first.toInt64) := by
  intro u next hfirst hsecond
  unfold Environment.callAddress
  rw [if_pos rfl, hfirst]
  cases env.hostReturn u next <;> rfl

/-- The register for the address of the host function is none that the printed value is in. -/
theorem printRegister_ne (value : Value) :
    printRegister value ≠ .rsp ∧ printRegister value ≠ .rbp ∧ printRegister value ≠ .rdi ∧
      ∀ r, value = .register r → r.hardware ≠ printRegister value := by
  cases value with
  | immediate n =>
    have hrax : printRegister (.immediate n) = .rax := rfl
    rw [hrax]
    exact ⟨by decide, by decide, by decide, fun r h => by cases h⟩
  | register q =>
    cases q <;> refine ⟨by decide, by decide, by decide, fun r h => ?_⟩ <;> cases h <;> decide

/-- The printed value is put into the first argument. -/
theorem performs_printArgument (env : Environment) (hinside : Inside p s t) (value : Value) :
    ∃ u, Performs env (printArgument value) t u ∧ Inside p s u ∧ u.get .rdi = valueWord t value ∧
      ∀ r, r ≠ .rdi → u.get r = t.get r := by
  unfold printArgument
  split
  · exact ⟨t, .nil t, hinside, rfl, fun _ _ => rfl⟩
  · exact ⟨_, .single (does_moveValue env .rdi value t), hinside.set (by decide) _, State.get_set_self _ _ _,
      fun r hr => State.get_set_of_ne _ _ hr⟩

/-- Setting the argument does not call. -/
theorem isCall_printArgument (value : Value) : ∀ i ∈ printArgument value, i.isCall = false := by
  unfold printArgument
  split
  · exact fun i hi => absurd hi List.not_mem_nil
  · cases value <;> exact List.forall_mem_singleton.2 rfl

/-- The code that prints a value calls the host once, with the value, and keeps everything. -/
theorem hostCall_printValue {o : Nat} (h : env.CallRoom p s) (value : Value)
    (hcode : env.CodeAt o (plainPieces (printValue env.host.intrinsics value))) :
    ∃ t : State, ∃ call : HostCall env env.host.intrinsics.printInteger (.integer (valueWord s value).toInt64) (s.goto env o)
        (t.goto env (o + sequenceSize (printValue env.host.intrinsics value))),
      call.entered.get .rdi = valueWord s value ∧ Keeps s t := by
  obtain ⟨hrsp, hrbp, hrdi, hother⟩ := printRegister_ne value
  obtain ⟨t, henter, hinside, hvia, htget⟩ := performs_enterHost h env.host.intrinsics.printInteger hrsp
  obtain ⟨u, hargument, huinside, hurdi, huget⟩ := performs_printArgument env hinside value
  have hvalue : valueWord t value = valueWord s value := by
    cases value with
    | register r => exact htget _ (hother r rfl) r.hardware_ne_rsp
    | immediate n => rfl
  have hbefore := henter.append hargument
  have hcalls := List.forall_mem_append.2
    ⟨isCall_enterHost env.host.intrinsics.printInteger (printRegister value), isCall_printArgument value⟩
  rw [printValue, plainPieces, List.map_append] at hcode
  obtain ⟨hbeforeCode, hleaveCode⟩ := Environment.codeAt_append.1 hcode
  have hsize : piecesSize ((enterHost env.host.intrinsics.printInteger (printRegister value) ++ printArgument value).map Piece.plain) =
      sequenceSize (enterHost env.host.intrinsics.printInteger (printRegister value) ++ printArgument value) :=
    piecesSize_plainPieces _
  rw [hsize] at hleaveCode
  have hfunction : u.get (printRegister value) = env.host.intrinsics.printInteger := (huget _ hrdi).trans hvia
  have hprints := prints_integer env (u.get .rdi) (u.get .rsi)
  obtain ⟨v, call, hentered, hkeeps⟩ := hostCall_inside h huinside hrbp hrsp hfunction hprints hleaveCode
  rw [printValue, sequenceSize_append, ← Nat.add_assoc, ← hvalue, ← hurdi]
  exact ⟨v, call.after (hbefore.trace hbeforeCode) hcalls, hentered .rdi (by decide) (by decide), hkeeps⟩

/-- The code that prints a value prints it and keeps everything. -/
theorem path_printValue {o : Nat} (h : env.Ready p s) (value : Value)
    (hcode : env.CodeAt o (plainPieces (printValue env.host.intrinsics value))) :
    ∃ n, ∃ t : State, Path env n (s.goto env o) [.integer (valueWord s value).toInt64]
      (t.goto env (o + sequenceSize (printValue env.host.intrinsics value))) ∧ Keeps s t := by
  obtain ⟨t, call, -, hkeeps⟩ := hostCall_printValue h.callRoom value hcode
  exact ⟨_, t, call.path, hkeeps⟩

/-! ## Texts -/

/-- Bytes of the code are read as they stand there. -/
theorem loadBytes_code {o : Nat} {bytes : List UInt8} (h : env.BytesAt o bytes) :
    env.loadBytes s (env.base + UInt64.ofNat o) bytes.length = .ok bytes := by
  induction bytes generalizing o with
  | nil => rfl
  | cons b rest ih =>
    obtain ⟨hinside, hbyte⟩ := h 0 (Nat.succ_pos _)
    have hload : env.load s (env.base + UInt64.ofNat o) = .ok b := by
      unfold Environment.load
      rw [Nat.add_zero] at hinside hbyte
      simp only [hinside, hbyte, List.getElem_cons_zero]
    have hrest := @ih (o + 1) fun k hk => by
      rw [show o + 1 + k = o + (k + 1) by omega]
      exact h (k + 1) (Nat.succ_lt_succ hk)
    rw [UInt64.ofNat_add, ← UInt64.add_assoc] at hrest
    rw [List.length_cons, Environment.loadBytes, hload]
    exact congrArg (Except.map (b :: ·)) hrest

/-- The host's function for texts prints something in any case, and the text at the address in its first argument, of the length in its
second one, if the address is not zero and the function is not the one for numbers. -/
theorem prints_text {o : Nat} {bytes : List UInt8} (h : env.BytesAt o bytes) (hlength : bytes.length < 2 ^ 64) :
    ∃ e, env.Prints env.host.intrinsics.printText (env.base + UInt64.ofNat o) (UInt64.ofNat bytes.length) e ∧
      (env.base + UInt64.ofNat o ≠ 0 → env.host.intrinsics.printInteger ≠ env.host.intrinsics.printText → e = .text bytes) := by
  by_cases hdistinct : env.host.intrinsics.printText = env.host.intrinsics.printInteger
  · refine ⟨.integer (env.base + UInt64.ofNat o).toInt64, ?_, fun _ hne => absurd hdistinct.symm hne⟩
    rw [hdistinct]
    exact prints_integer env _ _
  · obtain ⟨pointer, hpointer⟩ : ∃ pointer : TextPointer,
        pointer = if env.base + UInt64.ofNat o = 0 then .null bytes.length else .bytes bytes := ⟨_, rfl⟩
    refine ⟨pointer.event, ?_, fun haddress _ => by rw [hpointer, if_neg haddress]; rfl⟩
    intro u next hfirst hsecond
    have htext : env.textArgument u = .ok pointer := by
      unfold Environment.textArgument
      rw [hpointer, hfirst, hsecond, UInt64.toNat_ofNat_of_lt' hlength, loadBytes_code h]
      split <;> rfl
    unfold Environment.callAddress
    rw [if_neg hdistinct, if_pos rfl, htext]
    cases env.hostReturn u next <;> rfl

/-- The address and the length of a text are put into the two arguments. -/
theorem trace_textArguments {a o length : Nat} (hinside : Inside p s t) (haddress : env.PieceAt a (.address .rdi o))
    (hlength : env.CodeAt (a + 7) (plainPieces [.moveImmediate .rsi (Int64.ofNat length)])) :
    ∃ u : State, Trace env [.address .rdi (displacementTo o (a + 7)), .moveImmediate .rsi (Int64.ofNat length)] (t.goto env a)
        (u.goto env (a + 7 + 10)) ∧ Inside p s u ∧
      u.get .rdi = env.base + UInt64.ofNat o ∧ u.get .rsi = UInt64.ofNat length ∧ u.get .rax = t.get .rax := by
  have hloaded := haddress.trace_address t
  obtain ⟨u, hu⟩ : ∃ u, u = (t.set .rdi (env.base + UInt64.ofNat o)).set .rsi (UInt64.ofNat length) := ⟨_, rfl⟩
  have hcounted : Performs env [.moveImmediate .rsi (Int64.ofNat length)] (t.set .rdi (env.base + UInt64.ofNat o)) u := by
    rw [hu]
    exact .single fun _ _ => rfl
  refine ⟨u, hloaded.append (hcounted.trace hlength), hu ▸ (hinside.set (by decide) _).set (by decide) _, ?_, ?_, ?_⟩
  · rw [hu, State.get_set_of_ne _ _ (by decide), State.get_set_self]
  · rw [hu, State.get_set_self]
  · rw [hu, State.get_set_of_ne _ _ (by decide), State.get_set_of_ne _ _ (by decide)]

/-- An offset inside the code that is not its start has an address other than zero. -/
theorem base_add_ne_zero {o : Nat} (hbase : env.base.toNat + env.image.bytes.size ≤ 2 ^ 64) (hpos : 0 < o)
    (hlt : o < env.image.bytes.size) : env.base + UInt64.ofNat o ≠ 0 := by
  intro hzero
  have hnat := congrArg UInt64.toNat hzero
  rw [UInt64.toNat_add, UInt64.toNat_ofNat_of_lt' (show _ < 2 ^ 64 by omega), Nat.mod_eq_of_lt (by omega)] at hnat
  have : o = 0 := (Nat.add_eq_zero_iff.1 hnat).2
  omega

/-- The code that prints a text calls the host once, with the address and the length of the text that stands in it, and keeps
everything. -/
theorem hostCall_printText {o : Nat} (h : env.CallRoom p s) (text : List UInt8)
    (hcode : env.CodeAt o (textPieces env.host.intrinsics o text)) :
    ∃ e, ∃ t : State, ∃ call : HostCall env env.host.intrinsics.printText e (s.goto env o)
        (t.goto env (o + piecesSize (textPieces env.host.intrinsics o text))),
      call.entered.get .rdi = env.base + UInt64.ofNat (o + 5) ∧ call.entered.get .rsi = UInt64.ofNat text.length ∧
      env.BytesAt (o + 5) text ∧ o + 5 + text.length < env.image.bytes.size ∧ text.length < 2 ^ 64 ∧ Keeps s t ∧
      (env.base + UInt64.ofNat (o + 5) ≠ 0 → env.host.intrinsics.printInteger ≠ env.host.intrinsics.printText → e = .text text) := by
  obtain ⟨enter, henter⟩ : ∃ enter, enter = enterHost env.host.intrinsics.printText .rax := ⟨_, rfl⟩
  have hparts : textPieces env.host.intrinsics o text =
      [.jump (.offset (o + 5 + text.length)), .text text] ++ (plainPieces enter ++ (.address .rdi (o + 5) ::
        plainPieces (.moveImmediate .rsi (Int64.ofNat text.length) :: leaveHost .rax))) := by
    rw [henter]
    rfl
  have hskip : piecesSize [.jump (.offset (o + 5 + text.length)), .text text] = 5 + text.length := rfl
  rw [hparts] at hcode ⊢
  obtain ⟨hjumpCode, hrest⟩ := Environment.codeAt_append.1 hcode
  rw [hskip, ← Nat.add_assoc] at hrest
  obtain ⟨henterCode, hrest⟩ := Environment.codeAt_append.1 hrest
  rw [piecesSize_plainPieces] at hrest
  obtain ⟨haddressCode, hrest⟩ := Environment.codeAt_cons.1 hrest
  obtain ⟨hlengthCode, hleaveCode⟩ := Environment.codeAt_cons.1 hrest
  obtain ⟨hjump, htextCode⟩ := Environment.codeAt_cons.1 hjumpCode
  have hbytes : env.BytesAt (o + 5) text := (Environment.codeAt_cons.1 htextCode).1.2
  -- code stands behind the text
  obtain ⟨i, hbehind⟩ : ∃ i, env.InstructionAt (o + 5 + text.length) i := by
    rw [henter] at henterCode
    exact ⟨_, (Environment.codeAt_cons.1 henterCode).1.2⟩
  have hlength : text.length < 2 ^ 64 := by
    have := hbehind.lt_size
    omega
  obtain ⟨t, hentered, hinside, hrax, -⟩ := performs_enterHost h env.host.intrinsics.printText (show Reg.rax ≠ .rsp by decide)
  rw [← henter] at hentered
  obtain ⟨u, harguments, huinside, hurdi, hursi, hurax⟩ := trace_textArguments hinside haddressCode
    (Environment.codeAt_cons.2 ⟨hlengthCode, fun p hp => absurd hp List.not_mem_nil⟩)
  obtain ⟨e, hprints, htext⟩ := prints_text hbytes hlength
  rw [← hurdi, ← hursi] at hprints
  obtain ⟨v, call, hcall, hkeeps⟩ := hostCall_inside h huinside (show Reg.rax ≠ .rbp by decide) (by decide) (hurax.trans hrax) hprints
    hleaveCode
  have hbefore := (hjump.trace_jump s).append ((hentered.trace henterCode).append harguments)
  have hcalls : ∀ i ∈ [.jump (displacementTo (o + 5 + text.length) (o + 5))] ++ (enter ++
      [.address .rdi (displacementTo (o + 5) (o + 5 + text.length + sequenceSize enter + 7)),
        .moveImmediate .rsi (Int64.ofNat text.length)]), i.isCall = false := by
    rw [henter]
    refine List.forall_mem_append.2 ⟨List.forall_mem_singleton.2 rfl, List.forall_mem_append.2 ⟨isCall_enterHost _ _, ?_⟩⟩
    exact List.forall_mem_cons.2 ⟨rfl, List.forall_mem_singleton.2 rfl⟩
  rw [piecesSize_append, hskip, piecesSize_append, piecesSize_plainPieces, piecesSize_cons, piecesSize_plainPieces, sequenceSize_cons,
    ← Nat.add_assoc, ← Nat.add_assoc, ← Nat.add_assoc, ← Nat.add_assoc, ← Nat.add_assoc]
  exact ⟨e, v, call.after hbefore hcalls, (hcall .rdi (by decide) (by decide)).trans hurdi,
    (hcall .rsi (by decide) (by decide)).trans hursi, hbytes, hbehind.lt, hlength, hkeeps, htext⟩

/-- The code that prints a text prints it and keeps everything. -/
theorem path_printText {o : Nat} (h : env.Ready p s) (text : List UInt8)
    (hcode : env.CodeAt o (textPieces env.host.intrinsics o text)) (hbase : env.base.toNat + env.image.bytes.size ≤ 2 ^ 64)
    (hdistinct : env.host.intrinsics.printInteger ≠ env.host.intrinsics.printText) :
    ∃ n, ∃ t : State, Path env n (s.goto env o) [.text text]
      (t.goto env (o + piecesSize (textPieces env.host.intrinsics o text))) ∧ Keeps s t := by
  obtain ⟨e, t, call, -, -, -, hlt, -, hkeeps, htext⟩ := hostCall_printText h.callRoom text hcode
  obtain rfl := htext (base_add_ne_zero hbase (by omega) (by omega)) hdistinct
  exact ⟨_, t, call.path, hkeeps⟩

end

end Machine

end RegisterCompiler
