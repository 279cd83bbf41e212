import RegisterCompiler.Proofs.Execution.Branching
import RegisterCompiler.Proofs.Execution.HostCalls
import RegisterCompiler.Proofs.Rejection
import RegisterCompiler.Proofs.Session.Bodies

/-!
# Calls of the host are transparent

A statement that prints calls the host exactly once if its guard holds, and not at all if it does not. At the call the stack
pointer is aligned, a register holds the address of the host's function, and the arguments are what the statement prints. When the
statement has been carried out, every register, and memory from the stack pointer on, is as before, whatever the host does to the
registers, the flags and the memory that it need not keep (`host_call_transparent`).
-/

namespace RegisterCompiler

open X64 (Instruction Item Reg Sequence)

/-- The address of the function of the host that an action calls. -/
def Action.hostFunction? (intrinsics : Intrinsics) : Action → Option UInt64
  | .print _ => some intrinsics.printInteger
  | .printText _ => some intrinsics.printText
  | _ => none

/-- The code of a session that has gone on by writing pieces ends with their bytes. -/
theorem Session.Wrote.drop_bytes {s after : Session} {pieces : List Piece} (h : s.Wrote after pieces) :
    after.assembler.bytes.drop s.offset = bytesOf s.offset pieces := by
  have hlength : (s.assembler.items.toList.flatMap Item.encode).length = s.offset := by
    rw [X64.length_flatMap_encode, ← Session.offset_eq]
  rw [X64.Assembler.bytes, h.items, List.flatMap_append, List.drop_left' hlength]
  rfl

namespace Machine

/-- What the host finds at its call by the code of an action that stands at an offset and was entered in a state: the value of the
operand; or the address of the first byte of the text, which lies behind the jump over it, and the number of its bytes. -/
def Passes (env : Environment) (o : Nat) (s entered : State) : Action → Prop
  | .print source => entered.get .rdi = valueWord s source.value
  | .printText text =>
    entered.get .rdi = env.base + UInt64.ofNat (o + 5) ∧ (entered.get .rsi).toNat = (utf8Bytes text).length ∧
      env.loadBytes entered (entered.get .rdi) (entered.get .rsi).toNat = .ok (utf8Bytes text)
  | _ => False

/-- Whether a guard, if there is one, is true of the operands in a state. -/
def guardHolds (guard : Option Condition) (s : State) : Bool := guard.all (conditionHolds · s)

/-- How a statement that prints is compiled, and what its code does. -/
structure CallsTransparently (a : Action) (function : UInt64) (guard : Option Condition) (position : Position) (s : Session) :
    Prop where
  /-- The statement is compiled, unless its guard compares two numbers or the code has 2 GiB. -/
  compiles : conditionFaults guard = [] → s.offset + (Statement.action a guard position).size s.intrinsics < reachLimit →
    ∃ after, (Compile.statement (.action a guard position)).run s = (.ok (), after)
  /-- The processor carries out what was written for it, with any host at the addresses for which it was compiled and with room right
  below the stack pointer for the registers, the alignment and the address that the host returns to. -/
  runs : ∀ (after : Session) (env : Environment) (m : State),
    (Compile.statement (.action a guard position)).run s = (.ok (), after) → env.host.intrinsics = s.intrinsics →
    env.Holds s.offset (after.assembler.bytes.drop s.offset) → env.Room (callDepth (m.get .rsp).toNat) m →
    callDepth (m.get .rsp).toNat ≤ (m.get .rsp).toNat →
    ∃ t : State, Keeps m t ∧
      if guardHolds guard m then
        ∃ e, ∃ call : HostCall env function e (m.goto env s.offset) (t.goto env after.offset),
          Passes env (s.offset + skipSize guard) m call.entered a
      else ∃ sequence, (∀ i ∈ sequence, i.isCall = false) ∧ Trace env sequence (m.goto env s.offset) (t.goto env after.offset)

section

variable {env : Environment} {p o : Nat} {s t u : State}

/-- What is kept twice in a row is kept. -/
theorem Keeps.trans (h : Keeps s t) (h' : Keeps t u) : Keeps s u := by
  refine ⟨fun r => (h'.registers r).trans (h.registers r), ?_⟩
  have hmemory := h'.memory
  rw [h.registers] at hmemory
  exact hmemory.trans h.memory

/-- A state that keeps the registers keeps the value of every operand. -/
theorem Keeps.valueWord (h : Keeps s t) (value : Value) : valueWord t value = valueWord s value := by
  cases value with
  | register r => exact h.registers r.hardware
  | immediate n => rfl

/-- Room for a host call is kept with the stack pointer. -/
theorem Environment.CallRoom.keeps (h : env.CallRoom p s) (hkeeps : Keeps s t) : env.CallRoom p t :=
  ⟨h.room.of_rsp (hkeeps.registers .rsp), h.bound⟩

/-- There is room for a call at the stack pointer's own position if the room does not reach below address zero. -/
theorem Environment.Room.callRoom (h : env.Room (callDepth (s.get .rsp).toNat) s)
    (hle : callDepth (s.get .rsp).toNat ≤ (s.get .rsp).toNat) : env.CallRoom (s.get .rsp).toNat s := by
  have hlt := (s.get .rsp).toNat_lt
  refine ⟨⟨(UInt64.ofNat_toNat).symm, hle, fun q hlow hhigh => h _ ⟨(s.get .rsp).toNat - q, by omega, by omega, ?_⟩⟩, hlt⟩
  rw [← UInt64.toNat_inj, UInt64.toNat_sub, UInt64.toNat_ofNat', UInt64.toNat_ofNat']
  omega

/-! ## Guards -/

/-- An instruction that is contained does not call. -/
theorem Contained.isCall {depth : Nat} {i : Instruction} (h : Contained depth i) : i.isCall = false := by
  cases i <;> first | rfl | exact h.elim

/-- The code of a guard leads behind itself if the guard holds, and to its target if not. -/
theorem trace_guard {target : Nat} (guard : Option Condition) (hfaults : conditionFaults guard = []) (h : env.CallRoom p s)
    (hcode : env.CodeAt o (skipPieces guard target)) :
    ∃ sequence, ∃ t : State, (∀ i ∈ sequence, i.isCall = false) ∧
      Trace env sequence (s.goto env o) (t.goto env (if guardHolds guard s then o + skipSize guard else target)) ∧ Keeps s t := by
  cases guard with
  | none => exact ⟨[], s, fun i hi => absurd hi List.not_mem_nil, .nil _, fun _ => rfl, .refl _ _⟩
  | some c =>
    have hc : c.bothImmediate = false := by
      simpa [conditionFaults, Condition.faults] using hfaults
    have hdepth : compareDepth c ≤ callDepth p := by
      have hspill : slotDistance .spill ≤ 128 := by decide
      exact (compareDepth_le c).trans (hspill.trans (callDepth_eq p ▸ Nat.le_add_right _ _))
    obtain ⟨t, ht, hregisters, hflags⟩ := performs_compare (h.room.mono hdepth) hc
    obtain ⟨hcompareCode, hbranchCode⟩ := Environment.codeAt_append.1 hcode
    obtain ⟨hbranch, -⟩ := Environment.codeAt_cons.1 hbranchCode
    rw [piecesSize_plainPieces] at hbranch
    have hcontained := contained_compareCode c
    have htrace := (ht.trace hcompareCode).append (hbranch.trace_branch t)
    refine ⟨c.compareCode ++ [.branch c.flagComparison.complement.code (displacementTo target (o + sequenceSize c.compareCode + 6))],
      t, ?_, ?_, hregisters, (ht.untouched hcontained).agreesFrom (hdepth.trans (h.toNat ▸ h.room.depth_le))⟩
    · exact List.forall_mem_append.2 ⟨fun i hi => (hcontained i hi).isCall, List.forall_mem_singleton.2 rfl⟩
    · have hholds : holds c.flagComparison.complement.code t.flags = !guardHolds (some c) s := by
        rw [holds_complement_code, hflags]
        rfl
      rw [hholds] at htrace
      cases hguard : guardHolds (some c) s with
      | false =>
        rw [hguard] at htrace
        exact htrace
      | true =>
        rw [hguard, Nat.add_assoc] at htrace
        exact htrace

/-! ## Actions -/

/-- The code of an action that prints calls the host once, and keeps everything. -/
theorem hostCall_action {a : Action} {function : UInt64} {position : Position} (h : env.CallRoom p s)
    (hfunction : a.hostFunction? env.host.intrinsics = some function)
    (hcode : env.CodeAt o (a.pieces env.host.intrinsics .unknown o position)) :
    ∃ e, ∃ t : State, ∃ call : HostCall env function e (s.goto env o) (t.goto env (o + a.size env.host.intrinsics)),
      Passes env o s call.entered a ∧ Keeps s t := by
  cases a with
  | print source =>
    obtain rfl := Option.some.inj hfunction
    obtain ⟨t, call, hvalue, hkeeps⟩ := hostCall_printValue h source.value hcode
    exact ⟨_, t, call, hvalue, hkeeps⟩
  | printText text =>
    obtain rfl := Option.some.inj hfunction
    obtain ⟨e, t, call, hrdi, hrsi, hbytes, -, hlength, hkeeps, -⟩ := hostCall_printText h (utf8Bytes text) hcode
    have hcount : (call.entered.get .rsi).toNat = (utf8Bytes text).length := by
      rw [hrsi, UInt64.toNat_ofNat_of_lt' hlength]
    rw [Action.size, ← piecesSize_textPieces env.host.intrinsics o]
    refine ⟨e, t, call, ⟨hrdi, hcount, ?_⟩, hkeeps⟩
    rw [hcount, hrdi]
    exact loadBytes_code hbytes
  | _ => cases hfunction

/-! ## Statements -/

/-- What an action passes to the host does not change while everything is kept. -/
theorem Passes.of_keeps {entered : State} {a : Action} (h : Passes env o t entered a) (hkeeps : Keeps s t) :
    Passes env o s entered a := by
  cases a with
  | print source => exact Eq.trans h (hkeeps.valueWord source.value)
  | _ => exact h

/-- Every target of a statement that prints is known. -/
theorem known_prints {a : Action} {intrinsics : Intrinsics} {function : UInt64} (h : a.hostFunction? intrinsics = some function)
    (guard : Option Condition) (position : Position) :
    ∀ p ∈ (Statement.action a guard position).pieces intrinsics .unknown o, p.Known := by
  refine List.forall_mem_append.2 ⟨known_skipPieces _ _, ?_⟩
  cases a with
  | print source => exact known_plainPieces _
  | printText text => exact known_textPieces _ _ _
  | _ => cases h

/-- A statement that prints calls the host once if its guard holds, and nothing is left of the call behind it. -/
theorem host_call_transparent {a : Action} {function : UInt64} (guard : Option Condition) (position : Position) (s : Session)
    (h : a.hostFunction? s.intrinsics = some function) : CallsTransparently a function guard position s := by
  have hyields := Compile.yields_statement (.action a guard position) s (Nat.le_refl _)
  have hfaults : a.faults position = [] := by
    cases a <;> first | rfl | cases h
  have hall : conditionFaults (Statement.action a guard position).guard ++ (Statement.action a guard position).coreFaults =
      conditionFaults guard := by
    rw [Statement.coreFaults, hfaults, List.append_nil]
    rfl
  rw [hall] at hyields
  constructor
  · intro hguard hroom
    obtain ⟨_, after, hrun⟩ := hyields.exists_ok hguard hroom
    exact ⟨after, hrun⟩
  · intro after env m hrun hintrinsics hholds hroom hle
    obtain ⟨hguard, hgrew⟩ := hyields.of_ok hrun
    rw [hgrew.wrote.drop_bytes] at hholds
    have hcode := hholds.codeAt_pieces (allLand_of_known hgrew.wrote.reach (known_prints h guard position))
    obtain ⟨hguardCode, hactionCode⟩ := Environment.codeAt_append.1 hcode
    rw [piecesSize_skipPieces] at hactionCode
    have hready := hroom.callRoom hle
    obtain ⟨sequence, u, hcalls, htrace, hkeeps⟩ := trace_guard guard hguard hready hguardCode
    have hstop : after.offset = s.offset + skipSize guard + a.size s.intrinsics := by
      rw [hgrew.wrote.offset, Statement.piecesSize_pieces, Nat.add_assoc]
      rfl
    rw [← hintrinsics] at h hactionCode
    cases htrue : guardHolds guard m with
    | true =>
      rw [htrue] at htrace
      obtain ⟨e, t, call, hpasses, hkeeps'⟩ := hostCall_action (hready.keeps hkeeps) h hactionCode
      rw [hstop, ← hintrinsics]
      exact ⟨t, hkeeps.trans hkeeps', e, call.after htrace hcalls, hpasses.of_keeps hkeeps⟩
    | false =>
      rw [htrue] at htrace
      rw [hstop, Nat.add_assoc]
      exact ⟨u, hkeeps, sequence, hcalls, htrace⟩

end

/-- A text of one character in two bytes, printed if `rbx` is seven. -/
def greetingGuard : Condition := ⟨⟨.register .rbx, .unknown⟩, .equal, ⟨.immediate 7, .unknown⟩, .unknown⟩

/-- The session that has compiled the statement. -/
def greetingSession : Session :=
  ((Compile.statement (.action (.printText "é") (some greetingGuard) .unknown)).run (Session.start ⟨1, 2⟩)).2

/-- Its code in the standard environment. -/
def greetingEnvironment : Environment := standardEnvironment greetingSession.assembler.bytes ⟨1, 2⟩

/-- A state at the standard stack pointer in which the guard holds. -/
def greetingState : State :=
  ⟨(Registers.zero.set .rsp standardStackPointer).set .rbx 7, ⟨false, false, false, false, false⟩, Memory.zero, 0⟩

/-- The text is printed by one call, with its two bytes at the address that the host finds. -/
theorem host_call_transparent_greeting :
    ∃ e, ∃ t : State, ∃ call : HostCall greetingEnvironment 2 e (greetingState.goto greetingEnvironment 0)
        (t.goto greetingEnvironment greetingSession.offset),
      Keeps greetingState t ∧ (call.entered.get .rsi).toNat = 2 ∧
        greetingEnvironment.loadBytes call.entered (call.entered.get .rdi) 2 = .ok [0xC3, 0xA9] := by
  have hutf8 : utf8Bytes "é" = [0xC3, 0xA9] := by decide +kernel
  have hsize : greetingSession.assembler.bytes.length ≤ codeLimit := by decide +kernel
  have htransparent : CallsTransparently (.printText "é") 2 (some greetingGuard) .unknown (Session.start ⟨1, 2⟩) :=
    host_call_transparent _ _ _ rfl
  obtain ⟨hcompiles, hruns⟩ := htransparent
  obtain ⟨after, hafter⟩ := hcompiles rfl (by decide +kernel)
  have hrun : (Compile.statement (.action (.printText "é") (some greetingGuard) .unknown)).run (Session.start ⟨1, 2⟩) =
      (.ok (), greetingSession) := by
    rw [hafter]
    exact congrArg (Prod.mk _) (congrArg Prod.snd hafter).symm
  have hholds : greetingEnvironment.Holds 0 greetingSession.assembler.bytes := holds_standardEnvironment hsize
  obtain ⟨t, hkeeps, hcall⟩ := hruns greetingSession greetingEnvironment greetingState hrun rfl hholds
    (room_standardEnvironment hsize rfl (by decide)) (by decide)
  have htrue : guardHolds (some greetingGuard) greetingState = true := by decide
  rw [htrue] at hcall
  obtain ⟨e, call, -, hlength, hbytes⟩ := hcall
  rw [hutf8] at hlength hbytes
  rw [hlength] at hbytes
  exact ⟨e, t, call, hkeeps, hlength, hbytes⟩

end Machine

end RegisterCompiler
