import RegisterCompiler.Proofs.Execution.Containment

/-!
# Straight-line code

What the sequences of the compiler do that neither jump nor call. A sequence that sets a register (`Assigns`) keeps the other
registers and what lies on the stack; below the stack pointer it may write, as far as `reserve` goes.
-/

namespace RegisterCompiler.Machine

open X64 (Alu Instruction Reg Sequence Slot)

/-! ## Performing a sequence -/

/-- An instruction takes one state to another, wherever it stands. -/
def Environment.Does (env : Environment) (i : Instruction) (s t : State) : Prop :=
  ∀ pointer next, env.execute { s with pointer := pointer } next i = .ok (.next { t with pointer := next })

/-- The instructions of a sequence take one state to another. -/
inductive Performs (env : Environment) : Sequence → State → State → Prop where
  | nil (s : State) : Performs env [] s s
  | cons {i : Instruction} {rest : Sequence} {s t u : State} :
      env.Does i s t → Performs env rest t u → Performs env (i :: rest) s u

section

variable {env : Environment} {s t u : State} {o : Nat} {a b : Sequence}

/-- One instruction performs what it does. -/
theorem Performs.single {i : Instruction} (h : env.Does i s t) : Performs env [i] s t := .cons h (.nil t)

/-- Sequences in a row perform one after the other. -/
theorem Performs.append (h : Performs env a s t) (h' : Performs env b t u) : Performs env (a ++ b) s u := by
  induction h with
  | nil => exact h'
  | cons hi _ ih => exact .cons hi (ih h')

/-- A sequence that stands in the code is carried out, and leads behind it. -/
theorem Performs.trace (h : Performs env a s t) (hcode : env.CodeAt o (plainPieces a)) :
    Trace env a (s.goto env o) (t.goto env (o + sequenceSize a)) := by
  induction h generalizing o with
  | nil s => exact .nil _
  | @cons i rest s t u hi _ ih =>
    obtain ⟨hpiece, hrest⟩ := Environment.codeAt_cons.1 hcode
    have hinstruction : env.InstructionAt o i := hpiece.2
    have hstep : env.step (s.goto env o) = .ok (.next (t.goto env (o + i.size))) := by
      rw [hinstruction.step s]
      exact hi _ _
    rw [sequenceSize_cons, ← Nat.add_assoc]
    exact .cons (hinstruction.fetch s) hstep (ih hrest)

/-- A sequence that stands in the code is run from its start to behind its end. -/
theorem Performs.path (h : Performs env a s t) (hcode : env.CodeAt o (plainPieces a)) :
    Path env a.length (s.goto env o) [] (t.goto env (o + sequenceSize a)) :=
  (h.trace hcode).path

/-- A sequence leaves alone what its instructions may not write. -/
theorem Performs.untouched {depth : Nat} (h : Performs env a s t) (ha : ∀ i ∈ a, Contained depth i) : Untouched depth s t := by
  induction h with
  | nil s => exact .refl _ s
  | cons hi _ ih =>
    obtain ⟨hcontained, hrest⟩ := List.forall_mem_cons.1 ha
    obtain ⟨v, hv, huntouched⟩ := Environment.execute_contained hcontained (hi 0 0)
    obtain ⟨hregisters, -, hmemory, -⟩ := State.mk.inj (Transition.next.inj hv)
    refine Untouched.trans ⟨?_, fun a ha => ?_⟩ (ih hrest)
    · exact (congrArg (Registers.get · .rsp) hregisters).trans huntouched.pointer
    · exact (congrArg (Memory.read · a) hmemory).trans (huntouched.memory a ha)

/-- A sequence breaks off with a fault. -/
def Breaks (env : Environment) (sequence : Sequence) (s : State) (f : Fault) : Prop :=
  ∃ before i behind t, sequence = before ++ i :: behind ∧ Performs env before s t ∧
    ∀ pointer next, env.execute { t with pointer := pointer } next i = .error f

/-- A sequence breaks off with a fault at an instruction. -/
def BreaksAt (env : Environment) (sequence : Sequence) (i : Instruction) (s : State) (f : Fault) : Prop :=
  ∃ before behind t, sequence = before ++ i :: behind ∧ Performs env before s t ∧
    ∀ pointer next, env.execute { t with pointer := pointer } next i = .error f

variable {i : Instruction} {f : Fault}

/-- Breaking off at an instruction of a sequence is breaking off in it. -/
theorem BreaksAt.breaks (h : BreaksAt env a i s f) : Breaks env a s f := by
  obtain ⟨before, behind, t, hsequence, hbefore, hi⟩ := h
  exact ⟨before, i, behind, t, hsequence, hbefore, hi⟩

/-- A sequence that comes to its end leaves the fault to the one behind it. -/
theorem BreaksAt.after (h : BreaksAt env b i t f) (ha : Performs env a s t) : BreaksAt env (a ++ b) i s f := by
  obtain ⟨before, behind, u, rfl, hbefore, hi⟩ := h
  exact ⟨a ++ before, behind, u, (List.append_assoc _ _ _).symm, ha.append hbefore, hi⟩

/-- A sequence that breaks off at an instruction and stands in the code leads to a step that fetches the instruction and faults. -/
theorem BreaksAt.path (h : BreaksAt env a i s f) (hcode : env.CodeAt o (plainPieces a)) :
    ∃ n t, n < a.length ∧ Path env n (s.goto env o) [] t ∧ env.fetch t = .ok (i, i.size) ∧ env.step t = .error f := by
  obtain ⟨before, behind, t, rfl, hbefore, hi⟩ := h
  rw [plainPieces, List.map_append, List.map_cons] at hcode
  obtain ⟨hcode, hrest⟩ := Environment.codeAt_append.1 hcode
  obtain ⟨hpiece, _⟩ := Environment.codeAt_cons.1 hrest
  have hplain : piecesSize (before.map Piece.plain) = sequenceSize before := piecesSize_plainPieces before
  rw [hplain] at hpiece
  have hinstruction : env.InstructionAt (o + sequenceSize before) i := hpiece.2
  refine ⟨before.length, _, by simp, hbefore.path hcode, hinstruction.fetch t, ?_⟩
  rw [hinstruction.step t]
  exact hi _ _

/-- A sequence that breaks off and stands in the code leads to a step that faults. -/
theorem Breaks.path (h : Breaks env a s f) (hcode : env.CodeAt o (plainPieces a)) :
    ∃ n t, Path env n (s.goto env o) [] t ∧ env.step t = .error f := by
  obtain ⟨before, i, behind, t, hsequence, hbefore, hi⟩ := h
  obtain ⟨n, u, -, hpath, -, hstep⟩ := BreaksAt.path ⟨before, behind, t, hsequence, hbefore, hi⟩ hcode
  exact ⟨n, u, hpath, hstep⟩

end

/-! ## Room below the stack pointer -/

/-- The number of bytes below the stack pointer that the code of a statement may write: all registers, what an aligned stack
pointer skips, and the address that a host function returns to. -/
def reserve : Nat := 144

/-- The stack pointer is at a position below which there is enough room. -/
structure Environment.Ready (env : Environment) (p : Nat) (s : State) : Prop where
  pointer : s.get .rsp = UInt64.ofNat p
  room : reserve ≤ p
  bound : p < 2 ^ 64
  writable : env.Writable (p - reserve) p

/-- A number of bytes right below the stack pointer lie in the stack, and not in the code. -/
def Environment.Room (env : Environment) (depth : Nat) (s : State) : Prop :=
  ∀ a, s.Below depth a → env.codeOffset? a = none ∧ env.inStack a = true

/-- The stack pointer is at a position right below which a number of bytes lie in the stack. -/
structure Environment.RoomAt (env : Environment) (depth p : Nat) (s : State) : Prop where
  pointer : s.get .rsp = UInt64.ofNat p
  depth_le : depth ≤ p
  mapped : env.Mapped (p - depth) p

/-- The distance of a slot from the stack pointer. -/
def slotDistance (slot : Slot) : Nat := (8 * -slot.index).toNat

/-- Slots lie between eight and forty bytes below the stack pointer. -/
theorem slotDistance_bounds (slot : Slot) : 8 ≤ slotDistance slot ∧ slotDistance slot ≤ 40 := by
  cases slot <;> decide

/-- The displacement of a slot is its distance downwards. -/
theorem toInt_displacement (slot : Slot) : slot.displacement.toInt = -(slotDistance slot : Int) := by
  cases slot <;> decide

section

variable {env : Environment} {depth p : Nat} {s t : State}

namespace Environment

/-- Room for a depth is room for a smaller one. -/
theorem RoomAt.mono (h : env.RoomAt depth p s) {depth' : Nat} (hdepth : depth' ≤ depth) : env.RoomAt depth' p s :=
  ⟨h.pointer, hdepth.trans h.depth_le, h.mapped.mono (Nat.sub_le_sub_left hdepth p) (Nat.le_refl p)⟩

/-- Room depends on the stack pointer only. -/
theorem RoomAt.of_rsp (h : env.RoomAt depth p s) (hrsp : t.get .rsp = s.get .rsp) : env.RoomAt depth p t :=
  ⟨hrsp.trans h.pointer, h.depth_le, h.mapped⟩

/-- A stack pointer above enough room is at such a position: its number, which may be taken 2^64 higher. -/
theorem Room.roomAt (h : env.Room depth s) (hdepth : depth ≤ 2 ^ 64) : env.RoomAt depth ((s.get .rsp).toNat + 2 ^ 64) s := by
  refine ⟨?_, hdepth.trans (Nat.le_add_left _ _), fun q hlow hhigh => h _ ?_⟩
  · rw [← UInt64.toNat_inj, UInt64.toNat_ofNat', Nat.add_mod_right, Nat.mod_eq_of_lt (UInt64.toNat_lt _)]
  · refine ⟨(s.get .rsp).toNat + 2 ^ 64 - q, by omega, by omega, ?_⟩
    have hlt := (s.get .rsp).toNat_lt
    rw [← UInt64.toNat_inj, UInt64.toNat_sub, UInt64.toNat_ofNat', UInt64.toNat_ofNat']
    omega

/-- The reserve is room for every depth up to it. -/
theorem Ready.roomAt (h : env.Ready p s) (hdepth : depth ≤ reserve) : env.RoomAt depth p s :=
  ⟨h.pointer, hdepth.trans h.room, h.writable.mapped.mono (Nat.sub_le_sub_left hdepth p) (Nat.le_refl p)⟩

/-- A slot within the depth has its address, and its eight bytes are mapped. -/
theorem RoomAt.slot (h : env.RoomAt depth p s) {slot : Slot} (hslot : slotDistance slot ≤ depth) :
    s.get .rsp + wordOfInt32 slot.displacement = UInt64.ofNat (p - slotDistance slot) ∧
      env.Mapped (p - slotDistance slot) (p - slotDistance slot + 8) := by
  have hbounds := slotDistance_bounds slot
  have hdepth := h.depth_le
  refine ⟨?_, h.mapped.mono (by omega) (by omega)⟩
  rw [h.pointer]
  refine ofNat_add_wordOfInt32 ?_
  rw [toInt_displacement]
  omega

end Environment

/-- A store to a slot writes the register into memory at the distance of the slot. -/
theorem does_storeSlot (h : env.RoomAt depth p s) {slot : Slot} (hslot : slotDistance slot ≤ depth) (r : Reg) :
    env.Does (X64.storeSlot slot r) s { s with memory := s.memory.setWord (p - slotDistance slot) (s.get r) } := by
  intro pointer next
  obtain ⟨haddress, hmapped⟩ := h.slot hslot
  show (env.storeWord { s with pointer := pointer } (s.get .rsp + wordOfInt32 slot.displacement) (s.get r) >>= _) = _
  rw [haddress, Environment.storeWord_eq hmapped]
  rfl

/-- A load from a slot puts its word into the register. -/
theorem does_loadSlot (h : env.RoomAt depth p s) {slot : Slot} (hslot : slotDistance slot ≤ depth) (r : Reg) :
    env.Does (X64.loadSlot r slot) s (s.set r (s.memory.word (p - slotDistance slot))) := by
  intro pointer next
  obtain ⟨haddress, hmapped⟩ := h.slot hslot
  show (env.loadWord { s with pointer := pointer } (s.get .rsp + wordOfInt32 slot.displacement) >>= _) = _
  rw [haddress, Environment.loadWord_eq hmapped]
  rfl

/-- A store to a slot stays within a depth that the slot lies in. -/
theorem contained_storeSlot {slot : Slot} (hslot : slotDistance slot ≤ depth) (r : Reg) : Contained depth (X64.storeSlot slot r) := by
  have hbounds := slotDistance_bounds slot
  have hdisplacement := toInt_displacement slot
  exact ⟨by omega, by omega⟩

end

/-! ## Setting a register -/

/-- A register is set; the others, and the stack, are kept. -/
structure Assigns (dest : Reg) (w : UInt64) (s t : State) : Prop where
  value : t.get dest = w
  others : ∀ r, r ≠ dest → t.get r = s.get r
  memory : Memory.AgreesFrom (s.get .rsp).toNat t.memory s.memory

/-- The registers, and the stack, are kept. -/
structure Keeps (s t : State) : Prop where
  registers : ∀ r, t.get r = s.get r
  memory : Memory.AgreesFrom (s.get .rsp).toNat t.memory s.memory

/-- A register is set, and the others are kept. -/
structure Sets (dest : Reg) (w : UInt64) (s t : State) : Prop where
  value : t.get dest = w
  others : ∀ r, r ≠ dest → t.get r = s.get r

/-- An instruction sets a register, writes no memory and leaves some flags. -/
structure Operates (dest : Reg) (w : UInt64) (flags : Flags → Prop) (s t : State) : Prop where
  value : t.get dest = w
  others : ∀ r, r ≠ dest → t.get r = s.get r
  memory : t.memory = s.memory
  flags : flags t.flags

section

variable {env : Environment} {depth p : Nat} {s t : State} {dest : Reg} {w : UInt64} {flags : Flags → Prop} {a : Sequence}

/-- An operation sets its register and no other one. -/
theorem Operates.sets (h : Operates dest w flags s t) : Sets dest w s t := ⟨h.value, h.others⟩

/-- Setting a register to what it holds keeps every register. -/
theorem Sets.registers (h : Sets dest (s.get dest) s t) (r : Reg) : t.get r = s.get r := by
  by_cases hr : r = dest
  · rw [hr, h.value]
  · exact h.others r hr

/-- The stack pointer is at its position, as a number. -/
theorem Environment.Ready.toNat (h : env.Ready p s) : (s.get .rsp).toNat = p := by
  rw [h.pointer, UInt64.toNat_ofNat_of_lt' h.bound]

/-- A sequence keeps what lies on the stack if it writes only right below the stack pointer. -/
theorem Performs.agreesFrom (h : Performs env a s t) (ha : ∀ i ∈ a, Contained depth i) (hready : env.Ready p s)
    (hdepth : depth ≤ reserve) : Memory.AgreesFrom (s.get .rsp).toNat t.memory s.memory :=
  (h.untouched ha).agreesFrom ((hdepth.trans hready.room).trans_eq hready.toNat.symm)

/-- The borrowed register is not the one beside it, and not the stack pointer. -/
theorem borrowedFor_ne (dest : Reg) : X64.borrowedFor dest ≠ dest ∧ X64.borrowedFor dest ≠ .rsp := by
  unfold X64.borrowedFor
  by_cases h : dest = .rax
  · rw [if_pos h, h]
    decide
  · rw [if_neg h]
    exact ⟨Ne.symm h, by decide⟩

/-! ### Immediates -/

/-- The number of bytes below the stack pointer that an operation on an immediate needs: a slot, unless it fits 32 bits. -/
def immediateDepth (imm : Int64) : Nat := if -2 ^ 31 ≤ imm.toInt ∧ imm.toInt < 2 ^ 31 then 0 else 8

/-- Only an immediate beyond 32 bits needs a slot. -/
theorem immediateDepth_eq (imm : Int64) : immediateDepth imm = if X64.fitsImmediate imm then 0 else slotDistance .spill := by
  simp only [X64.fitsImmediate_iff]
  rfl

/-- An immediate needs at most the slot for a large one. -/
theorem immediateDepth_le (imm : Int64) : immediateDepth imm ≤ slotDistance .spill := by
  unfold immediateDepth
  split <;> decide

/-- An instruction on a large immediate stays above the end of its slot. -/
theorem contained_withImmediate {imm : Int64} (use : Reg → Instruction)
    (huse : Contained (slotDistance .spill) (use (X64.borrowedFor dest))) :
    ∀ i ∈ X64.withImmediate dest imm use, Contained (slotDistance .spill) i := by
  obtain ⟨-, hrsp⟩ := borrowedFor_ne dest
  simp only [X64.withImmediate, List.mem_cons, List.not_mem_nil, or_false, forall_eq_or_imp, forall_eq]
  exact ⟨contained_storeSlot (Nat.le_refl _) _, hrsp, huse, hrsp⟩

/-- An operation on a large immediate is the operation on a register that holds it, with this register put back. -/
theorem performs_withImmediate {imm : Int64} (use : Reg → Instruction) (h : env.RoomAt (slotDistance .spill) p s)
    (hdest : dest ≠ .rsp)
    (huse : ∀ u, u.get dest = s.get dest → u.get (X64.borrowedFor dest) = imm.toUInt64 →
      ∃ t, env.Does (use (X64.borrowedFor dest)) u t ∧ Operates dest w flags u t) :
    ∃ t, Performs env (X64.withImmediate dest imm use) s t ∧ Sets dest w s t ∧ flags t.flags := by
  obtain ⟨hne, hrsp⟩ := borrowedFor_ne dest
  obtain ⟨b, hb⟩ : ∃ b, b = X64.borrowedFor dest := ⟨_, rfl⟩
  rw [← hb] at hne hrsp huse
  -- the borrowed register is kept in a slot and holds the immediate
  obtain ⟨u, hu⟩ : ∃ u, u = { s with memory := s.memory.setWord (p - slotDistance .spill) (s.get b) } := ⟨_, rfl⟩
  have hroom : env.RoomAt (slotDistance .spill) p u := h.of_rsp (by rw [hu, State.get_withMemory])
  have hkept : (u.set b imm.toUInt64).get dest = s.get dest := by
    rw [State.get_set_of_ne _ _ hne.symm, hu, State.get_withMemory]
  obtain ⟨v, hdoes, hv⟩ := huse (u.set b imm.toUInt64) hkept (State.get_set_self _ _ _)
  have hvroom : env.RoomAt (slotDistance .spill) p v := by
    refine hroom.of_rsp ?_
    rw [hv.others _ hdest.symm, State.get_set_of_ne _ _ hrsp.symm]
  have hword : v.memory.word (p - slotDistance .spill) = s.get b := by
    rw [hv.memory, State.memory_set, hu]
    exact Memory.word_setWord _ _ _
  refine ⟨v.set b (s.get b), ?_, ⟨?_, ?_⟩, hv.flags⟩
  · unfold X64.withImmediate
    rw [← hb]
    refine .cons (hu ▸ does_storeSlot h (Nat.le_refl _) b) (.cons (fun _ _ => rfl) (.cons hdoes (.single ?_)))
    have := does_loadSlot hvroom (Nat.le_refl _) b
    rwa [hword] at this
  · rw [State.get_set_of_ne _ _ hne.symm, hv.value]
  · intro r hr
    by_cases hrb : r = b
    · rw [hrb, State.get_set_self]
    · rw [State.get_set_of_ne _ _ hrb, hv.others _ hr, State.get_set_of_ne _ _ hrb, hu, State.get_withMemory]

/-- What an operation leaves in its first register; a compare leaves it as it is. -/
def aluLeaves (op : Alu) (a b : UInt64) : UInt64 := if op = .cmp then a else aluResult op a b

/-- An operation on flags leaves its result in the register, and the flags of its operands. -/
theorem operates_operate (op : Alu) (dest : Reg) (w : UInt64) (s : State) :
    Operates dest (aluLeaves op (s.get dest) w) (· = aluFlags op (s.get dest) w) s (Environment.execute.operate s op dest w) := by
  unfold Environment.execute.operate aluLeaves
  by_cases hop : op = .cmp
  · rw [if_pos hop, if_pos hop]
    exact ⟨rfl, fun _ _ => rfl, rfl, rfl⟩
  · rw [if_neg hop, if_neg hop]
    refine ⟨State.get_set_self _ _ _, ?_, rfl, rfl⟩
    intro r hr
    rw [State.get_set_of_ne _ _ hr, State.get_withFlags]

/-- An operation on two registers takes the second one as its operand. -/
theorem does_alu (op : Alu) (dest source : Reg) (s : State) :
    env.Does (.alu op dest source) s (Environment.execute.operate s op dest (s.get source)) := by
  cases op <;> exact fun _ _ => rfl

/-- An operation on an immediate takes it with its sign. -/
theorem does_aluImmediate (env : Environment) (op : Alu) (dest : Reg) (imm : Int32) (s : State) :
    env.Does (.aluImmediate op dest imm) s (Environment.execute.operate s op dest (wordOfInt32 imm)) := by
  cases op <;> exact fun _ _ => rfl

/-- A multiplication leaves the product, and any flags. -/
theorem operates_multiply (env : Environment) (dest : Reg) (a b : UInt64) (s : State) :
    Operates dest (a * b) (fun _ => True) s (Environment.execute.multiply env s dest a b) := by
  unfold Environment.execute.multiply
  exact ⟨State.get_set_self _ _ _, fun r hr => State.get_set_of_ne _ _ hr, rfl, trivial⟩

/-- An immediate that fits 32 bits is itself when its sign is extended. -/
theorem wordOfInt32_toInt32 {imm : Int64} (h : X64.fitsImmediate imm = true) : wordOfInt32 imm.toInt32 = imm.toUInt64 := by
  unfold wordOfInt32
  rw [eq_of_beq h]

/-- The code of an operation on an immediate, with an instruction of its own for one that fits 32 bits, writes a slot at most. -/
theorem contained_ifFits {imm : Int64} {short : Instruction} (use : Reg → Instruction) (hshort : Contained 0 short)
    (huse : Contained (slotDistance .spill) (use (X64.borrowedFor dest))) :
    ∀ i ∈ if X64.fitsImmediate imm then [short] else X64.withImmediate dest imm use, Contained (immediateDepth imm) i := by
  rw [immediateDepth_eq]
  split
  · intro i hi
    exact List.mem_singleton.1 hi ▸ hshort
  · exact contained_withImmediate use huse

/-- The code of an operation on an immediate, with an instruction of its own for one that fits 32 bits, is the operation. -/
theorem performs_ifFits {imm : Int64} {short : Instruction} (use : Reg → Instruction) (flags : Flags → Prop)
    (h : env.RoomAt (immediateDepth imm) p s) (hdest : dest ≠ .rsp)
    (hshort : X64.fitsImmediate imm = true → ∃ t, env.Does short s t ∧ Operates dest w flags s t)
    (huse : ∀ u, u.get dest = s.get dest → u.get (X64.borrowedFor dest) = imm.toUInt64 →
      ∃ t, env.Does (use (X64.borrowedFor dest)) u t ∧ Operates dest w flags u t) :
    ∃ t, Performs env (if X64.fitsImmediate imm then [short] else X64.withImmediate dest imm use) s t ∧ Sets dest w s t ∧
      flags t.flags := by
  rw [immediateDepth_eq] at h
  by_cases hfits : X64.fitsImmediate imm = true
  · rw [if_pos hfits]
    obtain ⟨t, hdoes, ht⟩ := hshort hfits
    exact ⟨t, .single hdoes, ht.sets, ht.flags⟩
  · rw [if_neg hfits] at h ⊢
    exact performs_withImmediate use h hdest huse

/-- An operation on an immediate stays within the depth of the immediate. -/
theorem contained_aluImmediate (hdest : dest ≠ .rsp) (op : Alu) (imm : Int64) :
    ∀ i ∈ X64.aluImmediate op dest imm, Contained (immediateDepth imm) i :=
  contained_ifFits (fun source => .alu op dest source) hdest hdest

/-- In either form an operation on an immediate leaves the result and the flags of the operation. -/
theorem performs_aluImmediate {imm : Int64} (h : env.RoomAt (immediateDepth imm) p s) (hdest : dest ≠ .rsp) (op : Alu) :
    ∃ t, Performs env (X64.aluImmediate op dest imm) s t ∧ Sets dest (aluLeaves op (s.get dest) imm.toUInt64) s t ∧
      t.flags = aluFlags op (s.get dest) imm.toUInt64 := by
  refine performs_ifFits (fun source => .alu op dest source) (· = aluFlags op (s.get dest) imm.toUInt64) h hdest ?_ ?_
  · intro hfits
    rw [← wordOfInt32_toInt32 hfits]
    exact ⟨_, does_aluImmediate env op dest _ s, operates_operate op dest _ s⟩
  · intro u hu hborrowed
    rw [← hu, ← hborrowed]
    exact ⟨_, does_alu op dest _ u, operates_operate op dest _ u⟩

/-- A multiplication by an immediate stays within the depth of the immediate. -/
theorem contained_multiplyImmediate (hdest : dest ≠ .rsp) (imm : Int64) :
    ∀ i ∈ X64.multiplyImmediate dest imm, Contained (immediateDepth imm) i :=
  contained_ifFits (fun source => .multiply dest source) hdest hdest

/-- In either form a multiplication by an immediate leaves the product. -/
theorem performs_multiplyImmediate {imm : Int64} (h : env.RoomAt (immediateDepth imm) p s) (hdest : dest ≠ .rsp) :
    ∃ t, Performs env (X64.multiplyImmediate dest imm) s t ∧ Sets dest (s.get dest * imm.toUInt64) s t := by
  have hperforms : ∃ t, Performs env (X64.multiplyImmediate dest imm) s t ∧ Sets dest (s.get dest * imm.toUInt64) s t ∧
      True := by
    refine performs_ifFits (fun source => .multiply dest source) (fun _ => True) h hdest ?_ ?_
    · intro hfits
      rw [← wordOfInt32_toInt32 hfits]
      exact ⟨_, fun _ _ => rfl, operates_multiply env dest _ _ s⟩
    · intro u hu hborrowed
      rw [← hu, ← hborrowed]
      exact ⟨_, fun _ _ => rfl, operates_multiply env dest _ _ u⟩
  obtain ⟨t, ht, hsets, -⟩ := hperforms
  exact ⟨t, ht, hsets⟩

/-! ### Values -/

/-- The word that a value denotes. -/
def valueWord (s : State) : Value → UInt64
  | .register r => s.get r.hardware
  | .immediate n => n.toUInt64

/-- The number of bytes below the stack pointer that an operation on a value needs. -/
def valueDepth : Value → Nat
  | .register _ => 0
  | .immediate n => immediateDepth n

/-- An operand needs at most the slot for a large immediate. -/
theorem valueDepth_le (value : Value) : valueDepth value ≤ slotDistance .spill := by
  cases value with
  | register r => exact Nat.zero_le _
  | immediate n => exact immediateDepth_le n

/-- A register is set to a value. -/
theorem does_moveValue (env : Environment) (dest : Reg) (value : Value) (s : State) :
    env.Does (moveValue dest value) s (s.set dest (valueWord s value)) := by
  cases value <;> exact fun _ _ => rfl

/-- Setting a register assigns to it. -/
theorem assigns_set (s : State) (dest : Reg) (w : UInt64) : Assigns dest w s (s.set dest w) :=
  ⟨State.get_set_self _ _ _, fun _ hr => State.get_set_of_ne _ _ hr, .refl _ _⟩

/-- Combining a register with an operand stays within the depth of the operand. -/
theorem contained_combine (hdest : dest ≠ .rsp) (op : Alu) (value : Value) :
    ∀ i ∈ combine op dest value, Contained (valueDepth value) i := by
  cases value with
  | register r => exact fun i hi => List.mem_singleton.1 hi ▸ hdest
  | immediate n => exact contained_aluImmediate hdest op n

/-- A register is combined with a value. -/
theorem performs_combine {value : Value} (h : env.RoomAt (valueDepth value) p s) (hdest : dest ≠ .rsp) (op : Alu) :
    ∃ t, Performs env (combine op dest value) s t ∧ Sets dest (aluLeaves op (s.get dest) (valueWord s value)) s t ∧
      t.flags = aluFlags op (s.get dest) (valueWord s value) := by
  cases value with
  | register r =>
    have hop := operates_operate op dest (s.get r.hardware) s
    exact ⟨_, .single (does_alu op dest _ s), hop.sets, hop.flags⟩
  | immediate n => exact performs_aluImmediate h hdest op

/-- Multiplying a register by an operand stays within the depth of the operand. -/
theorem contained_multiplyBy (hdest : dest ≠ .rsp) (value : Value) :
    ∀ i ∈ multiplyBy dest value, Contained (valueDepth value) i := by
  cases value with
  | register r => exact fun i hi => List.mem_singleton.1 hi ▸ hdest
  | immediate n => exact contained_multiplyImmediate hdest n

/-- A register is multiplied by a value. -/
theorem performs_multiplyBy {value : Value} (h : env.RoomAt (valueDepth value) p s) (hdest : dest ≠ .rsp) :
    ∃ t, Performs env (multiplyBy dest value) s t ∧ Sets dest (s.get dest * valueWord s value) s t := by
  cases value with
  | register r =>
    exact ⟨_, .single fun _ _ => rfl, (operates_multiply env dest (s.get dest) (s.get r.hardware) s).sets⟩
  | immediate n => exact performs_multiplyImmediate h hdest

end

end RegisterCompiler.Machine
