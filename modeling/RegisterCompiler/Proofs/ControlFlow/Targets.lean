import RegisterCompiler.Proofs.ControlFlow.Chunks

/-!
# Where code leads

A jump of a statement goes to an instruction of the statement, to its end, or to an end of the loop around it
(`jumps_bodyPieces`), and every text has a jump over it and an address that leads to it (`orderly_bodyPieces`). Both hold of
pieces one after another if they hold of each, so the proofs follow the statements.
-/

namespace RegisterCompiler

open X64 (Instruction Sequence)

namespace Piece

/-- Where a jump or a branch goes. -/
def jumpTarget? : Piece → Option Nat
  | jump (.offset n) => some n
  | branch _ (.offset n) => some n
  | _ => none

/-- Whether a piece is a text. -/
def isText : Piece → Bool
  | text _ => true
  | _ => false

end Piece

/-! ## Targets of jumps -/

/-- A property of every offset at which an instruction begins. -/
def Covers (P : Nat → Prop) (start : Nat) (pieces : List Piece) : Prop :=
  ∀ p ∈ located start pieces, p.2.isText = false → P p.1

/-- A property of everywhere that jumps and branches go. -/
def Jumps (P : Nat → Prop) (pieces : List Piece) : Prop := ∀ p ∈ pieces, ∀ n, p.jumpTarget? = some n → P n

section

variable {P : Nat → Prop}

/-- A property is one of two parts exactly if it is one of each, the second part moved behind the first one. -/
@[simp] theorem covers_append (start : Nat) (a b : List Piece) :
    Covers P start (a ++ b) ↔ Covers P start a ∧ Covers P (start + piecesSize a) b := by
  simp [Covers, or_imp, forall_and]

/-- A text asks for nothing at its start, any other piece does. -/
@[simp] theorem covers_cons (start : Nat) (p : Piece) (rest : List Piece) :
    Covers P start (p :: rest) ↔ (p.isText = false → P start) ∧ Covers P (start + p.size) rest := by
  simp [Covers]

/-- Without pieces there is no target. -/
theorem jumps_nil : Jumps P [] := fun _ hp => absurd hp List.not_mem_nil

/-- What holds of the targets of two parts holds of those of both together. -/
theorem jumps_append {a b : List Piece} (ha : Jumps P a) (hb : Jumps P b) : Jumps P (a ++ b) := by
  intro p hp
  rcases List.mem_append.1 hp with hp | hp
  · exact ha p hp
  · exact hb p hp

/-- Of one more piece only its own target has to be looked at. -/
theorem jumps_cons {p : Piece} {rest : List Piece} (hp : ∀ n, p.jumpTarget? = some n → P n) (hrest : Jumps P rest) :
    Jumps P (p :: rest) := by
  intro q hq
  rcases List.mem_cons.1 hq with rfl | hq
  · exact hp
  · exact hrest q hq

/-- Plain instructions do not jump. -/
theorem jumps_plainPieces (sequence : Sequence) : Jumps P (plainPieces sequence) := by
  intro p hp
  obtain ⟨i, _, rfl⟩ := List.mem_map.1 hp
  exact nofun

/-- A test only jumps to its target. -/
theorem jumps_testPieces (c : Condition) {target : Nat} (h : P target) : Jumps P (c.testPieces target) :=
  jumps_append (jumps_plainPieces _) (jumps_cons (fun _ hn => Option.some.inj hn ▸ h) jumps_nil)

/-- Nor does a test that may be left out jump elsewhere. -/
theorem jumps_skipPieces (condition : Option Condition) {target : Nat} (h : P target) : Jumps P (skipPieces condition target) := by
  cases condition with
  | none => exact jumps_nil
  | some c => exact jumps_testPieces c h

/-- Pieces that do not begin with a text begin where an instruction does, or have no bytes. -/
theorem start_of_covers {start : Nat} {pieces : List Piece} (hhead : ∀ p, pieces.head? = some p → p.isText = false)
    (hc : Covers P start pieces) (hstop : P (start + piecesSize pieces)) : P start := by
  cases pieces with
  | nil => exact hstop
  | cons p rest => exact ((covers_cons _ _ _).1 hc).1 (hhead p rfl)

end

/-- Pieces that do not begin with a text. -/
def Enterable (pieces : List Piece) : Prop := ∀ p, pieces.head? = some p → p.isText = false

/-- Pieces that do not begin with a text can stand one after the other. -/
theorem enterable_append {a b : List Piece} (ha : Enterable a) (hb : Enterable b) : Enterable (a ++ b) := by
  intro p hp
  cases a with
  | nil => exact hb p hp
  | cons q rest => exact ha p hp

/-- Plain instructions are no text. -/
theorem enterable_plainPieces (sequence : Sequence) : Enterable (plainPieces sequence) := by
  intro p hp
  obtain ⟨i, _, rfl⟩ := List.mem_map.1 (List.mem_of_head? hp)
  rfl

/-- A test begins with a compare. -/
theorem enterable_testPieces (c : Condition) (target : Nat) : Enterable (c.testPieces target) :=
  enterable_append (enterable_plainPieces _) fun _ hp => Option.some.inj hp ▸ rfl

/-- A test that may be left out begins with its compare, or is empty. -/
theorem enterable_skipPieces (condition : Option Condition) (target : Nat) : Enterable (skipPieces condition target) := by
  cases condition with
  | none => exact fun p hp => nomatch hp
  | some c => exact enterable_testPieces c target

/-- No action begins with a text: printing one begins with the jump over it. -/
theorem Action.enterable_pieces (intrinsics : Intrinsics) (around : Surroundings) (start : Nat) (position : Position) (a : Action) :
    Enterable (a.pieces intrinsics around start position) := by
  cases a with
  | update dest op source => exact enterable_plainPieces _
  | print source => exact enterable_plainPieces _
  | compute dest op lhs rhs => exact fun p hp => nomatch hp
  | _ => exact fun p hp => Option.some.inj hp ▸ rfl

mutual

/-- No statement begins with a text. -/
theorem Statement.enterable_core (intrinsics : Intrinsics) (around : Surroundings) (start : Nat) (s : Statement) :
    Enterable (s.core intrinsics around start) := by
  cases s with
  | action a guard position => exact a.enterable_pieces intrinsics around start position
  | loop condition body guard position =>
    exact enterable_append (enterable_append (enterable_skipPieces _ _) (enterable_bodyPieces intrinsics _ _ body))
      fun _ hp => Option.some.inj hp ▸ rfl
  | branch condition thenBody elseBody guard position =>
    have htest := fun target => enterable_append (enterable_testPieces condition target)
      (enterable_bodyPieces intrinsics around (start + condition.testSize) thenBody)
    simp only [Statement.core]
    split
    · exact htest _
    · exact enterable_append (htest _) fun _ hp => Option.some.inj hp ▸ rfl

/-- No body begins with a text. -/
theorem enterable_bodyPieces (intrinsics : Intrinsics) (around : Surroundings) (start : Nat) (body : List Statement) :
    Enterable (bodyPieces intrinsics around start body) := by
  cases body with
  | nil => exact fun p hp => nomatch hp
  | cons s rest =>
    exact enterable_append (enterable_append (enterable_skipPieces _ _) (s.enterable_core intrinsics around _))
      (enterable_bodyPieces intrinsics around _ rest)

end

section

variable {P : Nat → Prop}

/-- Both ends of the loop around, if there is one, have a property. -/
def Surroundings.Within (P : Nat → Prop) (around : Surroundings) : Prop :=
  ∀ start stop, around.loop = some (start, stop) → P start ∧ P stop

/-- The jump over a text goes to the instruction behind it. -/
theorem jumps_textPieces {intrinsics : Intrinsics} {start : Nat} {text : List UInt8}
    (hc : Covers P start (textPieces intrinsics start text)) : Jumps P (textPieces intrinsics start text) := by
  have hbehind : P (start + 5 + text.length) := by
    simp only [textPieces, List.cons_append, covers_cons, covers_append] at hc
    exact ((covers_cons _ (.plain (.push .rax)) _).1 hc.2.2.1).1 rfl
  unfold textPieces
  refine jumps_append (jumps_cons (fun _ hn => Option.some.inj hn ▸ hbehind) (jumps_cons ?_ (jumps_plainPieces _))) ?_
  · intro n hn
    cases hn
  · refine jumps_cons ?_ (jumps_plainPieces _)
    intro n hn
    cases hn

/-- An action jumps over its own text, or to an end of the loop around. -/
theorem Action.jumps_pieces {intrinsics : Intrinsics} {around : Surroundings} {start : Nat} {position : Position} {a : Action}
    (hc : Covers P start (a.pieces intrinsics around start position)) (hloop : around.Within P) :
    Jumps P (a.pieces intrinsics around start position) := by
  cases a with
  | printText text => exact jumps_textPieces hc
  | update dest op source => exact jumps_plainPieces _
  | print source => exact jumps_plainPieces _
  | breakLoop =>
    refine jumps_cons (fun n hn => ?_) jumps_nil
    cases hl : around.loop with
    | none => simp [Surroundings.breakTarget, hl, Piece.jumpTarget?] at hn
    | some l =>
      obtain rfl : l.2 = n := by simpa [Surroundings.breakTarget, hl, Piece.jumpTarget?] using hn
      exact (hloop l.1 l.2 hl).2
  | continueLoop =>
    refine jumps_cons (fun n hn => ?_) jumps_nil
    cases hl : around.loop with
    | none => simp [Surroundings.continueTarget, hl, Piece.jumpTarget?] at hn
    | some l =>
      obtain rfl : l.1 = n := by simpa [Surroundings.continueTarget, hl, Piece.jumpTarget?] using hn
      exact (hloop l.1 l.2 hl).1
  | compute dest op lhs rhs => exact jumps_nil
  | _ => exact jumps_cons nofun jumps_nil

mutual

/-- A statement jumps to instructions of its own, to its end, or to an end of the loop around. -/
theorem Statement.jumps_core {intrinsics : Intrinsics} {around : Surroundings} {start : Nat} (s : Statement)
    (hc : Covers P start (s.core intrinsics around start)) (hstop : P (start + s.coreSize intrinsics)) (hloop : around.Within P) :
    Jumps P (s.core intrinsics around start) := by
  cases s with
  | action a guard position => exact Action.jumps_pieces hc hloop
  | loop condition body guard position =>
    have hstart : P start := start_of_covers (Statement.enterable_core _ _ _ _) hc (by simpa using hstop)
    simp only [Statement.coreSize, ← Nat.add_assoc] at hstop
    simp only [Statement.core] at hc ⊢
    simp only [covers_append, covers_cons, piecesSize_append, piecesSize_skipPieces, piecesSize_bodyPieces] at hc
    have hback : P (start + skipSize condition + bodySize intrinsics body) := by
      rw [Nat.add_assoc]
      exact hc.2.1 rfl
    refine jumps_append (jumps_append (jumps_skipPieces _ hstop) ?_) ?_
    · refine jumps_bodyPieces body hc.1.2 hback fun a b hl => ?_
      obtain ⟨rfl, rfl⟩ : start = a ∧ _ = b := by simpa [Surroundings.inLoop] using hl
      exact ⟨hstart, hstop⟩
    · exact jumps_cons (fun _ hn => Option.some.inj hn ▸ hstart) jumps_nil
  | branch condition thenBody elseBody guard position =>
    simp only [Statement.coreSize, ← Nat.add_assoc] at hstop
    simp only [Statement.core] at hc ⊢
    split at hstop
    · rename_i hempty
      rw [if_pos hempty] at hc ⊢
      rw [covers_append, piecesSize_testPieces] at hc
      exact jumps_append (jumps_testPieces _ hstop) (jumps_bodyPieces thenBody hc.2 hstop hloop)
    · rename_i helse
      rw [if_neg helse] at hc ⊢
      simp only [covers_append, covers_cons, piecesSize_append, piecesSize_testPieces, piecesSize_bodyPieces, ← Nat.add_assoc] at hc
      have hover : P (start + condition.testSize + bodySize intrinsics thenBody) := hc.2.1 rfl
      have helseStart : P (start + condition.testSize + bodySize intrinsics thenBody + 5) :=
        start_of_covers (enterable_bodyPieces _ _ _ elseBody) hc.2.2 (by simpa [Nat.add_assoc] using hstop)
      refine jumps_append (jumps_append (jumps_testPieces _ helseStart) (jumps_bodyPieces thenBody hc.1.2 hover hloop)) ?_
      refine jumps_cons (fun n hn => ?_) (jumps_bodyPieces elseBody hc.2.2 (by simpa [Nat.add_assoc] using hstop) hloop)
      rw [← Option.some.inj hn, Nat.add_assoc _ 5]
      exact hstop

/-- The jumps of statements go to their instructions, to their end, or to an end of the loop around them. -/
theorem jumps_bodyPieces {intrinsics : Intrinsics} {around : Surroundings} {start : Nat} (body : List Statement)
    (hc : Covers P start (bodyPieces intrinsics around start body)) (hstop : P (start + bodySize intrinsics body))
    (hloop : around.Within P) : Jumps P (bodyPieces intrinsics around start body) := by
  cases body with
  | nil => exact jumps_nil
  | cons s rest =>
    simp only [bodySize, ← Nat.add_assoc] at hstop
    simp only [bodyPieces, covers_append, piecesSize_append, piecesSize_skipPieces, Statement.piecesSize_core, ← Nat.add_assoc] at hc
    have hmiddle : P (start + skipSize s.guard + s.coreSize intrinsics) :=
      start_of_covers (enterable_bodyPieces _ _ _ rest) hc.2 (by simpa using hstop)
    exact jumps_append (jumps_append (jumps_skipPieces _ hmiddle) (s.jumps_core hc.1.2 hmiddle hloop))
      (jumps_bodyPieces rest hc.2 hstop hloop)

end

end

/-! ## Texts -/

/-- Instructions that do something and refer to no code. -/
def ProperSequence (sequence : Sequence) : Prop := ∀ i ∈ sequence, i ≠ .nop ∧ i.displacement? = none

/-- Proper sequences may follow one another. -/
theorem properSequence_append {a b : Sequence} (ha : ProperSequence a) (hb : ProperSequence b) : ProperSequence (a ++ b) := by
  intro i hi
  rcases List.mem_append.1 hi with hi | hi
  · exact ha i hi
  · exact hb i hi

/-- One instruction is proper if it does something and refers to no code. -/
theorem properSequence_singleton {i : Instruction} (h : i ≠ .nop) (h' : i.displacement? = none) : ProperSequence [i] := by
  intro j hj
  obtain rfl := List.mem_singleton.1 hj
  exact ⟨h, h'⟩

/-- An operation on an immediate is proper in its short and in its long form. -/
theorem properSequence_aluImmediate (op : X64.Alu) (dest : X64.Reg) (imm : Int64) :
    ProperSequence (X64.aluImmediate op dest imm) := by
  unfold X64.aluImmediate X64.withImmediate
  split <;> simp [ProperSequence, Instruction.displacement?, X64.storeSlot, X64.loadSlot]

/-- So is a multiplication by an immediate. -/
theorem properSequence_multiplyImmediate (dest : X64.Reg) (imm : Int64) : ProperSequence (X64.multiplyImmediate dest imm) := by
  unfold X64.multiplyImmediate X64.withImmediate
  split <;> simp [ProperSequence, Instruction.displacement?, X64.storeSlot, X64.loadSlot]

/-- A division is proper, whatever it divides by. -/
theorem properSequence_divideBy (dest : X64.Reg) (divisor : X64.Divisor) (part : X64.DivisionPart) :
    ProperSequence (X64.divideBy dest divisor part) := by
  cases divisor <;> simp [ProperSequence, Instruction.displacement?, X64.divideBy, X64.storeSlot, X64.loadSlot]

/-- The compare of a condition is proper. -/
theorem properSequence_compareCode (c : Condition) : ProperSequence c.compareCode := by
  unfold Condition.compareCode
  split
  · rename_i sequence comparison hc
    unfold Condition.compare at hc
    split at hc
    · obtain ⟨rfl, rfl⟩ := Prod.mk.inj (Except.ok.inj hc)
      simp [ProperSequence, Instruction.displacement?]
    · obtain ⟨rfl, rfl⟩ := Prod.mk.inj (Except.ok.inj hc)
      exact properSequence_aluImmediate _ _ _
    · obtain ⟨rfl, rfl⟩ := Prod.mk.inj (Except.ok.inj hc)
      exact properSequence_aluImmediate _ _ _
    · cases hc
  · exact fun i hi => absurd hi List.not_mem_nil

/-- Every update of a register is proper. -/
theorem properSequence_updateRegister (dest : X64.Reg) (op : Operation) (value : Value) :
    ProperSequence (updateRegister dest op value) := by
  have hcombine : ∀ alu, ProperSequence (combine alu dest value) := by
    intro alu
    cases value with
    | register r => simp [ProperSequence, combine, Instruction.displacement?]
    | immediate n => exact properSequence_aluImmediate _ _ _
  cases op with
  | mul =>
    cases value with
    | register r => simp [ProperSequence, updateRegister, multiplyBy, Instruction.displacement?]
    | immediate n => exact properSequence_multiplyImmediate _ _
  | div => exact properSequence_divideBy _ _ _
  | mod => exact properSequence_divideBy _ _ _
  | _ => exact hcombine _

/-- Saving the registers is proper. -/
theorem properSequence_pushAll : ProperSequence X64.pushAll := by
  intro i hi
  obtain ⟨r, _, rfl⟩ := List.mem_map.1 hi
  exact ⟨nofun, rfl⟩

/-- Taking them back is proper. -/
theorem properSequence_popAll : ProperSequence X64.popAll := by
  intro i hi
  obtain ⟨r, _, rfl⟩ := List.mem_map.1 hi
  exact ⟨nofun, rfl⟩

/-- The start of a host call is proper. -/
theorem properSequence_enterHost (function : UInt64) (via : X64.Reg) : ProperSequence (enterHost function via) :=
  properSequence_append properSequence_pushAll (by simp [ProperSequence, Instruction.displacement?])

/-- The end of a host call is proper: it calls through a register. -/
theorem properSequence_leaveHost (via : X64.Reg) : ProperSequence (leaveHost via) :=
  properSequence_append (by simp [ProperSequence, Instruction.displacement?]) properSequence_popAll

/-- Setting a register is proper. -/
theorem properSequence_moveValue (dest : X64.Reg) (value : Value) : ProperSequence [moveValue dest value] := by
  cases value <;> simp [ProperSequence, moveValue, Instruction.displacement?]

/-- Printing an operand is proper. -/
theorem properSequence_printValue (intrinsics : Intrinsics) (value : Value) : ProperSequence (printValue intrinsics value) := by
  refine properSequence_append (properSequence_append (properSequence_enterHost _ _) ?_) (properSequence_leaveHost _)
  unfold printArgument
  split
  · exact fun i hi => absurd hi List.not_mem_nil
  · exact properSequence_moveValue _ _

/-- Code in which every text has a jump over it, every address is that of a text with the start of a host call between the two,
every call goes to a procedure, and every instruction that refers to no code does something. -/
structure Orderly (intrinsics : Intrinsics) (procedure : String → Option Nat) (code : List (Nat × Piece)) : Prop where
  proper : ∀ p ∈ code, p.2.Proper
  text : ∀ n bytes, (n, .text bytes) ∈ code → ∃ j, j + 5 = n ∧ (j, .jump (.offset (n + bytes.length))) ∈ code
  address : ∀ o dest n, (o, .address dest n) ∈ code →
    ∃ bytes, (n, .text bytes) ∈ code ∧ o = n + bytes.length + sequenceSize (enterHost intrinsics.printText .rax)
  call : ∀ o n, (o, .call (.offset n)) ∈ code → ∃ name, procedure name = some n

section

variable {intrinsics : Intrinsics} {procedure : String → Option Nat}

/-- Orderly code may follow orderly code. -/
theorem orderly_append {a b : List (Nat × Piece)} (ha : Orderly intrinsics procedure a) (hb : Orderly intrinsics procedure b) :
    Orderly intrinsics procedure (a ++ b) := by
  refine ⟨fun p hp => ?_, fun n bytes h => ?_, fun o dest n h => ?_, fun o n h => ?_⟩
  · rcases List.mem_append.1 hp with hp | hp
    · exact ha.proper p hp
    · exact hb.proper p hp
  · rcases List.mem_append.1 h with h | h
    · obtain ⟨j, hj, hmem⟩ := ha.text n bytes h
      exact ⟨j, hj, List.mem_append_left _ hmem⟩
    · obtain ⟨j, hj, hmem⟩ := hb.text n bytes h
      exact ⟨j, hj, List.mem_append_right _ hmem⟩
  · rcases List.mem_append.1 h with h | h
    · obtain ⟨bytes, hmem, ho⟩ := ha.address o dest n h
      exact ⟨bytes, List.mem_append_left _ hmem, ho⟩
    · obtain ⟨bytes, hmem, ho⟩ := hb.address o dest n h
      exact ⟨bytes, List.mem_append_right _ hmem, ho⟩
  · rcases List.mem_append.1 h with h | h
    · exact ha.call o n h
    · exact hb.call o n h

/-- So may orderly pieces, where the second ones are located behind the first ones. -/
theorem orderly_pieces_append {start : Nat} {a b : List Piece} (ha : Orderly intrinsics procedure (located start a))
    (hb : Orderly intrinsics procedure (located (start + piecesSize a) b)) : Orderly intrinsics procedure (located start (a ++ b)) := by
  rw [located_append]
  exact orderly_append ha hb

/-- Pieces without texts, addresses and calls. -/
theorem orderly_of_simple {start : Nat} {pieces : List Piece} (hproper : ∀ p ∈ pieces, p.Proper)
    (htext : ∀ bytes, .text bytes ∉ pieces) (haddress : ∀ dest n, .address dest n ∉ pieces)
    (hcall : ∀ target, .call target ∉ pieces) :
    Orderly intrinsics procedure (located start pieces) :=
  ⟨fun p hp => hproper p.2 (mem_of_mem_located hp), fun _ bytes h => absurd (mem_of_mem_located h) (htext bytes),
    fun _ dest n h => absurd (mem_of_mem_located h) (haddress dest n), fun _ _ h => absurd (mem_of_mem_located h) (hcall _)⟩

/-- The empty code is orderly. -/
theorem orderly_nil : Orderly intrinsics procedure [] :=
  ⟨fun _ h => absurd h List.not_mem_nil, fun _ _ h => absurd h List.not_mem_nil, fun _ _ _ h => absurd h List.not_mem_nil,
    fun _ _ h => absurd h List.not_mem_nil⟩

/-- The pieces of a proper sequence are proper. -/
theorem proper_plainPieces {sequence : Sequence} (h : ProperSequence sequence) : ∀ p ∈ plainPieces sequence, p.Proper := by
  intro p hp j hj
  obtain ⟨i, hi, rfl⟩ := List.mem_map.1 hp
  obtain rfl := Piece.plain.inj hj
  exact h i hi

/-- A proper sequence is orderly wherever it stands. -/
theorem orderly_plainPieces {sequence : Sequence} (h : ProperSequence sequence) (start : Nat) :
    Orderly intrinsics procedure (located start (plainPieces sequence)) := by
  refine orderly_of_simple (proper_plainPieces h) (fun bytes hb => ?_) (fun dest n hn => ?_) (fun target ht => ?_)
  · obtain ⟨i, _, hi⟩ := List.mem_map.1 hb
    cases hi
  · obtain ⟨i, _, hi⟩ := List.mem_map.1 hn
    cases hi
  · obtain ⟨i, _, hi⟩ := List.mem_map.1 ht
    cases hi

/-- A single jump is orderly. -/
theorem orderly_jump (start : Nat) (target : Target) : Orderly intrinsics procedure (located start [.jump target]) :=
  orderly_of_simple (by simp [Piece.Proper]) (by simp) (by simp) (by simp)

/-- A single call is orderly, as its target is that of a procedure. -/
theorem orderly_call (around : Surroundings) (start : Nat) (h : around.procedure = procedure) (name : String) :
    Orderly intrinsics procedure (located start [.call (around.callTarget name)]) := by
  refine ⟨by simp [Piece.Proper], by simp, by simp, fun o n hn => ⟨name, ?_⟩⟩
  unfold Surroundings.callTarget at hn
  rw [← h]
  split at hn <;> simp_all

/-- A test is orderly. -/
theorem orderly_testPieces (start : Nat) (c : Condition) (target : Nat) :
    Orderly intrinsics procedure (located start (c.testPieces target)) :=
  orderly_pieces_append (orderly_plainPieces (properSequence_compareCode c) start)
    (orderly_of_simple (by simp [Piece.Proper]) (by simp) (by simp) (by simp))

/-- A test that may be left out is orderly. -/
theorem orderly_skipPieces (start : Nat) (condition : Option Condition) (target : Nat) :
    Orderly intrinsics procedure (located start (skipPieces condition target)) := by
  cases condition with
  | none => exact orderly_nil
  | some c => exact orderly_testPieces start c target

/-- What the code of a text consists of: a jump over it, the text, the load of its address, and plain code. -/
theorem mem_located_textPieces {start : Nat} {text : List UInt8} {o : Nat} {p : Piece}
    (h : (o, p) ∈ located start (textPieces intrinsics start text)) :
    (o = start ∧ p = .jump (.offset (start + 5 + text.length))) ∨ (o = start + 5 ∧ p = .text text) ∨
      (o = start + 5 + text.length + sequenceSize (enterHost intrinsics.printText .rax) ∧ p = .address .rdi (start + 5)) ∨
      p.Proper ∧ ∃ i, p = .plain i := by
  have hcall : ProperSequence (.moveImmediate .rsi (Int64.ofNat text.length) :: leaveHost .rax) :=
    properSequence_append (properSequence_singleton (by simp) rfl) (properSequence_leaveHost .rax)
  have hplain : ∀ {n sequence}, ProperSequence sequence → (o, p) ∈ located n (plainPieces sequence) →
      p.Proper ∧ ∃ i, p = .plain i := by
    intro n sequence hsequence hp
    have hmem := mem_of_mem_located hp
    obtain ⟨i, _, hi⟩ := List.mem_map.1 hmem
    exact ⟨proper_plainPieces hsequence p hmem, i, hi.symm⟩
  rw [textPieces] at h
  simp only [List.cons_append, located_cons, located_append, List.mem_cons, List.mem_append, piecesSize_plainPieces, Piece.size,
    X64.HoleKind.size] at h
  rcases h with h | h | h | h | h
  · exact .inl (Prod.mk.inj h)
  · exact .inr (.inl (Prod.mk.inj h))
  · exact .inr (.inr (.inr (hplain (properSequence_enterHost _ _) h)))
  · exact .inr (.inr (.inl (Prod.mk.inj h)))
  · exact .inr (.inr (.inr (hplain hcall h)))

/-- A text is jumped over, and its address is taken behind the start of the host call. -/
theorem orderly_textPieces (start : Nat) (text : List UInt8) :
    Orderly intrinsics procedure (located start (textPieces intrinsics start text)) := by
  refine ⟨fun p hp => ?_, fun n bytes h => ?_, fun o dest n h => ?_, fun o n h => ?_⟩
  · obtain ⟨o, p⟩ := p
    rcases mem_located_textPieces hp with ⟨_, rfl⟩ | ⟨_, rfl⟩ | ⟨_, rfl⟩ | ⟨hproper, _⟩
    · intro i hi
      cases hi
    · intro i hi
      cases hi
    · intro i hi
      cases hi
    · exact hproper
  · refine ⟨start, ?_⟩
    rcases mem_located_textPieces h with ⟨_, hjump⟩ | ⟨hn, htext⟩ | ⟨_, haddress⟩ | ⟨_, i, hi⟩
    · cases hjump
    · obtain rfl := Piece.text.inj htext
      exact ⟨hn.symm, by simp [textPieces, hn]⟩
    · cases haddress
    · cases hi
  · refine ⟨text, ?_⟩
    rcases mem_located_textPieces h with ⟨_, hjump⟩ | ⟨_, htext⟩ | ⟨ho, haddress⟩ | ⟨_, i, hi⟩
    · cases hjump
    · cases htext
    · obtain ⟨rfl, rfl⟩ := Piece.address.inj haddress
      exact ⟨by simp [textPieces, Piece.size, X64.HoleKind.size], ho⟩
    · cases hi
  · rcases mem_located_textPieces h with ⟨_, hjump⟩ | ⟨_, htext⟩ | ⟨_, haddress⟩ | ⟨_, i, hi⟩
    · cases hjump
    · cases htext
    · cases haddress
    · cases hi

/-- The code of an action is orderly: a text has its jump before it and its address behind it. -/
theorem Action.orderly_pieces {around : Surroundings} (h : around.procedure = procedure) (start : Nat) (position : Position)
    (a : Action) :
    Orderly intrinsics procedure (located start (a.pieces intrinsics around start position)) := by
  cases a with
  | assign dest source => exact orderly_plainPieces (properSequence_moveValue _ _) start
  | update dest op source => exact orderly_plainPieces (properSequence_updateRegister _ _ _) start
  | compute dest op lhs rhs => exact orderly_nil
  | breakLoop => exact orderly_jump start _
  | continueLoop => exact orderly_jump start _
  | returnCall => exact orderly_plainPieces (properSequence_singleton (by simp) rfl) start
  | call name => exact orderly_call around start h name
  | print source => exact orderly_plainPieces (properSequence_printValue _ _) start
  | printText text => exact orderly_textPieces start _
  | push r => exact orderly_plainPieces (properSequence_singleton (by simp) rfl) start
  | pop r => exact orderly_plainPieces (properSequence_singleton (by simp) rfl) start

end

mutual

/-- The code of a statement is orderly. -/
theorem Statement.orderly_core {intrinsics : Intrinsics} {procedure : String → Option Nat} {around : Surroundings}
    (h : around.procedure = procedure) (start : Nat) (s : Statement) :
    Orderly intrinsics procedure (located start (s.core intrinsics around start)) := by
  cases s with
  | action a guard position => exact a.orderly_pieces h start position
  | loop condition body guard position =>
    refine orderly_pieces_append (orderly_pieces_append (orderly_skipPieces _ _ _) ?_) (orderly_jump _ _)
    rw [piecesSize_skipPieces]
    exact orderly_bodyPieces (show (around.inLoop _ _).procedure = procedure from h) _ body
  | branch condition thenBody elseBody guard position =>
    have hthen : ∀ target, Orderly intrinsics procedure (located start (condition.testPieces target ++
        bodyPieces intrinsics around (start + condition.testSize) thenBody)) := by
      intro target
      refine orderly_pieces_append (orderly_testPieces _ _ _) ?_
      rw [piecesSize_testPieces]
      exact orderly_bodyPieces h _ thenBody
    simp only [Statement.core]
    split
    · exact hthen _
    · refine orderly_pieces_append (hthen _) ?_
      rw [piecesSize_append, piecesSize_testPieces, piecesSize_bodyPieces, ← Nat.add_assoc]
      exact orderly_pieces_append (a := [_]) (orderly_jump _ _) (orderly_bodyPieces h _ elseBody)

/-- The pieces of statements are orderly. -/
theorem orderly_bodyPieces {intrinsics : Intrinsics} {procedure : String → Option Nat} {around : Surroundings}
    (h : around.procedure = procedure) (start : Nat) (body : List Statement) :
    Orderly intrinsics procedure (located start (bodyPieces intrinsics around start body)) := by
  cases body with
  | nil => exact orderly_nil
  | cons s rest =>
    refine orderly_pieces_append (orderly_pieces_append (orderly_skipPieces _ _ _) ?_) ?_
    · rw [piecesSize_skipPieces]
      exact s.orderly_core h _
    · rw [piecesSize_append, piecesSize_skipPieces, Statement.piecesSize_core, ← Nat.add_assoc]
      exact orderly_bodyPieces h _ rest

end

end RegisterCompiler
