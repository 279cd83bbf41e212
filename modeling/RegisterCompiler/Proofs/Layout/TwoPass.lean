import RegisterCompiler.Proofs.Layout.Piece

/-!
# Code laid out in two passes

The code of a program, written by a generator that knows every size before it writes anything. The first pass computes the number
of bytes of every statement and procedure, the second one writes the pieces with their targets: a skip goes to the end of the
statement that it guards, a jump out of a loop to the byte behind the loop, a jump to the next round to the loop's first byte, the
entry of a branch to its second body or its end, and a call to the procedure that it names. Nothing is repaired later.
-/

namespace RegisterCompiler

open X64 (Code Instruction Item Sequence)

/-! ## The first pass: sizes -/

/-- The compare of a condition; none of two immediates. -/
def Condition.compareCode (c : Condition) : Sequence :=
  match c.compare with
  | .ok (sequence, _) => sequence
  | .error _ => []

/-- The comparison that holds behind the compare of a condition exactly when the condition does. -/
def Condition.flagComparison (c : Condition) : Comparison :=
  match c.compare with
  | .ok (_, comparison) => comparison
  | .error _ => c.comparison

/-- The number of bytes of a compare and the branch behind it. -/
def Condition.testSize (c : Condition) : Nat := sequenceSize c.compareCode + 6

/-- The number of bytes that test a condition, if there is one. -/
def skipSize : Option Condition → Nat
  | none => 0
  | some c => c.testSize

/-- The code of a text that follows the text. -/
def textCallSize (intrinsics : Intrinsics) : Nat :=
  sequenceSize (enterHost intrinsics.printText .rax) + 7 + 10 + sequenceSize (leaveHost .rax)

/-- The number of bytes of an action; nothing is written for the combination of two operands. -/
def Action.size (intrinsics : Intrinsics) : Action → Nat
  | .assign dest source => (moveValue dest.hardware source.value).size
  | .update dest op source => sequenceSize (updateRegister dest.hardware op source.value)
  | .compute _ _ _ _ => 0
  | .breakLoop => 5
  | .continueLoop => 5
  | .returnCall => Instruction.ret.size
  | .call _ => 5
  | .print source => sequenceSize (printValue intrinsics source.value)
  | .printText text => 5 + (utf8Bytes text).length + textCallSize intrinsics
  | .push r => (Instruction.push r.hardware).size
  | .pop r => (Instruction.pop r.hardware).size

mutual

/-- The number of bytes of a statement behind its guard. -/
def Statement.coreSize (intrinsics : Intrinsics) : Statement → Nat
  | .action a _ _ => a.size intrinsics
  | .loop condition body _ _ => skipSize condition + bodySize intrinsics body + 5
  | .branch condition thenBody elseBody _ _ =>
    condition.testSize + bodySize intrinsics thenBody +
      if elseBody.isEmpty then 0 else 5 + bodySize intrinsics elseBody

/-- The number of bytes of statements. -/
def bodySize (intrinsics : Intrinsics) : List Statement → Nat
  | [] => 0
  | s :: rest => skipSize s.guard + s.coreSize intrinsics + bodySize intrinsics rest

end

/-- The number of bytes of a statement. -/
def Statement.size (intrinsics : Intrinsics) (s : Statement) : Nat := skipSize s.guard + s.coreSize intrinsics

/-- The number of bytes of a procedure. -/
def Procedure.size (intrinsics : Intrinsics) (p : Procedure) : Nat := bodySize intrinsics p.body + Instruction.ret.size

/-- The number of bytes of procedures. -/
def proceduresSize (intrinsics : Intrinsics) (ps : List Procedure) : Nat := (ps.map (Procedure.size intrinsics)).sum

/-- The number of bytes of the code that a host enters. -/
def trampolineSize : Nat := sequenceSize X64.pushAll + 5 + sequenceSize (X64.popAll ++ [.ret])

/-- Where procedures begin that are written from an offset on. -/
def procedureOffsets (intrinsics : Intrinsics) (start : Nat) : List Procedure → List (String × Nat)
  | [] => []
  | p :: rest => (p.name, start) :: procedureOffsets intrinsics (start + p.size intrinsics) rest

/-! ## The second pass: pieces with their targets -/

/-- What the targets of a statement depend on: the loop around it, from its first byte to the byte behind it, and where the
procedures begin. -/
structure Surroundings where
  loop : Option (Nat × Nat)
  procedure : String → Option Nat

namespace Surroundings

/-- Nothing is known. -/
def unknown : Surroundings := ⟨none, fun _ => none⟩

/-- The surroundings of the body of a loop. -/
def inLoop (around : Surroundings) (start stop : Nat) : Surroundings := { around with loop := some (start, stop) }

/-- Where a jump out of the loop goes. -/
def breakTarget (around : Surroundings) (position : Position) : Target :=
  match around.loop with
  | some (_, stop) => .offset stop
  | none => .loopStop position

/-- Where a jump to the next round of the loop goes. -/
def continueTarget (around : Surroundings) (position : Position) : Target :=
  match around.loop with
  | some (start, _) => .offset start
  | none => .loopStart position

/-- Where a call goes. -/
def callTarget (around : Surroundings) (name : String) : Target :=
  match around.procedure name with
  | some n => .offset n
  | none => .procedure name

end Surroundings

/-- The test of a condition that goes to an offset if it does not hold. -/
def Condition.testPieces (c : Condition) (target : Nat) : List Piece :=
  plainPieces c.compareCode ++ [.branch c.flagComparison.complement.code (.offset target)]

/-- The test of a condition, if there is one. -/
def skipPieces (condition : Option Condition) (target : Nat) : List Piece :=
  match condition with
  | none => []
  | some c => c.testPieces target

/-- The pieces of a text printed from an offset on: a jump over the text, the text, and the call of the host. -/
def textPieces (intrinsics : Intrinsics) (start : Nat) (text : List UInt8) : List Piece :=
  .jump (.offset (start + 5 + text.length)) :: .text text :: plainPieces (enterHost intrinsics.printText .rax) ++
    .address .rdi (start + 5) ::
      plainPieces (.moveImmediate .rsi (Int64.ofNat text.length) :: leaveHost .rax)

/-- The pieces of an action at a position. -/
def Action.pieces (intrinsics : Intrinsics) (around : Surroundings) (start : Nat) (position : Position) : Action → List Piece
  | .assign dest source => [.plain (moveValue dest.hardware source.value)]
  | .update dest op source => plainPieces (updateRegister dest.hardware op source.value)
  | .compute _ _ _ _ => []
  | .breakLoop => [.jump (around.breakTarget position)]
  | .continueLoop => [.jump (around.continueTarget position)]
  | .returnCall => [.plain .ret]
  | .call name => [.call (around.callTarget name)]
  | .print source => plainPieces (printValue intrinsics source.value)
  | .printText text => textPieces intrinsics start (utf8Bytes text)
  | .push r => [.plain (.push r.hardware)]
  | .pop r => [.plain (.pop r.hardware)]

mutual

/-- The pieces of a statement behind its guard, from an offset on. -/
def Statement.core (intrinsics : Intrinsics) (around : Surroundings) (start : Nat) : Statement → List Piece
  | .action a _ position => a.pieces intrinsics around start position
  | .loop condition body _ _ =>
    let first := start + skipSize condition
    let stop := first + bodySize intrinsics body + 5
    skipPieces condition stop ++ bodyPieces intrinsics (around.inLoop start stop) first body ++ [.jump (.offset start)]
  | .branch condition thenBody elseBody _ _ =>
    let first := start + condition.testSize
    let behind := first + bodySize intrinsics thenBody
    if elseBody.isEmpty then condition.testPieces behind ++ bodyPieces intrinsics around first thenBody
    else
      let stop := behind + 5 + bodySize intrinsics elseBody
      condition.testPieces (behind + 5) ++ bodyPieces intrinsics around first thenBody ++ .jump (.offset stop) ::
        bodyPieces intrinsics around (behind + 5) elseBody

/-- The pieces of statements from an offset on. -/
def bodyPieces (intrinsics : Intrinsics) (around : Surroundings) (start : Nat) : List Statement → List Piece
  | [] => []
  | s :: rest =>
    let first := start + skipSize s.guard
    let stop := first + s.coreSize intrinsics
    skipPieces s.guard stop ++ s.core intrinsics around first ++ bodyPieces intrinsics around stop rest

end

/-- The pieces of a statement from an offset on. -/
def Statement.pieces (intrinsics : Intrinsics) (around : Surroundings) (start : Nat) (s : Statement) : List Piece :=
  skipPieces s.guard (start + s.size intrinsics) ++ s.core intrinsics around (start + skipSize s.guard)

/-- The pieces of a procedure from an offset on. -/
def Procedure.pieces (intrinsics : Intrinsics) (around : Surroundings) (start : Nat) (p : Procedure) : List Piece :=
  bodyPieces intrinsics around start p.body ++ [.plain .ret]

/-- The pieces of procedures from an offset on. -/
def proceduresPieces (intrinsics : Intrinsics) (around : Surroundings) (start : Nat) : List Procedure → List Piece
  | [] => []
  | p :: rest =>
    p.pieces intrinsics around start ++ proceduresPieces intrinsics around (start + p.size intrinsics) rest

/-- The pieces of the code that a host enters. -/
def trampolinePieces (around : Surroundings) : List Piece :=
  plainPieces X64.pushAll ++ .call (around.callTarget Compile.mainName) :: plainPieces (X64.popAll ++ [.ret])

namespace ProcedureTable

/-- Where the procedures of a table begin. -/
def offsets (table : ProcedureTable) (intrinsics : Intrinsics) : List (String × Nat) :=
  procedureOffsets intrinsics 0 table.procedures

/-- Where the code that a host enters begins: behind every procedure. -/
def entry (table : ProcedureTable) (intrinsics : Intrinsics) : Nat := proceduresSize intrinsics table.procedures

/-- The number of bytes of a program. -/
def codeSize (table : ProcedureTable) (intrinsics : Intrinsics) : Nat := table.entry intrinsics + trampolineSize

/-- Where a procedure begins, by name. -/
def offset? (table : ProcedureTable) (intrinsics : Intrinsics) (name : String) : Option Nat :=
  ((table.offsets intrinsics).find? fun p => p.1 == name).map Prod.snd

/-- The surroundings of the procedures of a table. -/
def surroundings (table : ProcedureTable) (intrinsics : Intrinsics) : Surroundings := ⟨none, table.offset? intrinsics⟩

/-- The pieces of a program. -/
def pieces (table : ProcedureTable) (intrinsics : Intrinsics) : List Piece :=
  proceduresPieces intrinsics (table.surroundings intrinsics) 0 table.procedures ++
    trampolinePieces (table.surroundings intrinsics)

end ProcedureTable

/-- The code of pieces. -/
def codeOf (pieces : List Piece) : Code :=
  ⟨(itemsOf 0 pieces).flatMap Item.encode, X64.dataRanges 0 (itemsOf 0 pieces)⟩

/-- A program written in two passes, unless a target of it does not exist or is too far away. -/
def ProcedureTable.twoPass (table : ProcedureTable) (intrinsics : Intrinsics) : Option Compiled :=
  if AllLand 0 (table.pieces intrinsics) then
    some ⟨codeOf (table.pieces intrinsics), table.entry intrinsics, table.offsets intrinsics, intrinsics⟩
  else none

/-- What the two passes give is the code of the pieces of the program, which all land. -/
theorem ProcedureTable.eq_of_twoPass {table : ProcedureTable} {intrinsics : Intrinsics} {c : Compiled}
    (h : table.twoPass intrinsics = some c) : AllLand 0 (table.pieces intrinsics) ∧
      c = ⟨codeOf (table.pieces intrinsics), table.entry intrinsics, table.offsets intrinsics, intrinsics⟩ := by
  unfold twoPass at h
  by_cases hland : AllLand 0 (table.pieces intrinsics)
  · rw [if_pos hland, Option.some.injEq] at h
    exact ⟨hland, h.symm⟩
  · rw [if_neg hland] at h
    cases h

/-! ## Pieces have the sizes of the first pass -/

/-- A test takes up the bytes that were computed for it. -/
@[simp] theorem piecesSize_testPieces (c : Condition) (target : Nat) : piecesSize (c.testPieces target) = c.testSize := by
  simp [Condition.testPieces, Condition.testSize, Piece.size, X64.HoleKind.size]

/-- So does a test that may be left out. -/
@[simp] theorem piecesSize_skipPieces (condition : Option Condition) (target : Nat) :
    piecesSize (skipPieces condition target) = skipSize condition := by
  cases condition <;> simp [skipPieces, skipSize]

/-- Sequences in a row take up the sum of what each takes up. -/
theorem sequenceSize_append (a b : Sequence) : sequenceSize (a ++ b) = sequenceSize a + sequenceSize b := by
  simp [sequenceSize]

/-- A sequence takes up what its first instruction and what the rest takes up. -/
theorem sequenceSize_cons (i : Instruction) (s : Sequence) : sequenceSize (i :: s) = i.size + sequenceSize s := by
  simp [sequenceSize]

/-- The move of a 64-bit immediate always takes up ten bytes. -/
theorem size_moveImmediate (dest : X64.Reg) (imm : Int64) : (Instruction.moveImmediate dest imm).size = 10 := rfl

/-- A text takes up the jump over it, its bytes and the call that prints it. -/
theorem piecesSize_textPieces (intrinsics : Intrinsics) (start : Nat) (text : List UInt8) :
    piecesSize (textPieces intrinsics start text) = 5 + text.length + textCallSize intrinsics := by
  simp only [textPieces, textCallSize, List.cons_append, piecesSize_cons, piecesSize_append, piecesSize_plainPieces,
    sequenceSize_cons, size_moveImmediate, Piece.size, X64.HoleKind.size]
  omega

/-- An action takes up the bytes that were computed for it. -/
@[simp] theorem Action.piecesSize_pieces (intrinsics : Intrinsics) (around : Surroundings) (start : Nat) (position : Position)
    (a : Action) : piecesSize (a.pieces intrinsics around start position) = a.size intrinsics := by
  cases a <;> simp [Action.pieces, Action.size, Piece.size, X64.HoleKind.size, piecesSize_textPieces]

mutual

/-- A statement without its guard takes up the bytes that were computed for it. -/
@[simp] theorem Statement.piecesSize_core (intrinsics : Intrinsics) (around : Surroundings) (start : Nat) (s : Statement) :
    piecesSize (s.core intrinsics around start) = s.coreSize intrinsics := by
  cases s with
  | action a guard position => simp [Statement.core, Statement.coreSize]
  | loop condition body guard position =>
    simp [Statement.core, Statement.coreSize, piecesSize_bodyPieces, Piece.size, X64.HoleKind.size, Nat.add_assoc]
  | branch condition thenBody elseBody guard position =>
    simp only [Statement.core, Statement.coreSize]
    split <;> simp [piecesSize_bodyPieces, Piece.size, X64.HoleKind.size, Nat.add_assoc]

/-- A body takes up the bytes that were computed for it. -/
@[simp] theorem piecesSize_bodyPieces (intrinsics : Intrinsics) (around : Surroundings) (start : Nat) (body : List Statement) :
    piecesSize (bodyPieces intrinsics around start body) = bodySize intrinsics body := by
  cases body with
  | nil => rfl
  | cons s rest => simp [bodyPieces, bodySize, Statement.piecesSize_core, piecesSize_bodyPieces, Nat.add_assoc]

end

/-- A statement takes up the bytes that were computed for it. -/
@[simp] theorem Statement.piecesSize_pieces (intrinsics : Intrinsics) (around : Surroundings) (start : Nat) (s : Statement) :
    piecesSize (s.pieces intrinsics around start) = s.size intrinsics := by
  simp [Statement.pieces, Statement.size]

/-- The code of a body is that of its first statement and that of the rest behind it. -/
theorem bodyPieces_cons (intrinsics : Intrinsics) (around : Surroundings) (start : Nat) (s : Statement) (rest : List Statement) :
    bodyPieces intrinsics around start (s :: rest) =
      s.pieces intrinsics around start ++ bodyPieces intrinsics around (start + s.size intrinsics) rest := by
  simp [bodyPieces, Statement.pieces, Statement.size, Nat.add_assoc]

/-- A body takes up what its first statement and what the rest takes up. -/
theorem bodySize_cons (intrinsics : Intrinsics) (s : Statement) (rest : List Statement) :
    bodySize intrinsics (s :: rest) = s.size intrinsics + bodySize intrinsics rest := by
  simp [bodySize, Statement.size]

/-- A procedure takes up the bytes that were computed for it. -/
@[simp] theorem Procedure.piecesSize_pieces (intrinsics : Intrinsics) (around : Surroundings) (start : Nat) (p : Procedure) :
    piecesSize (p.pieces intrinsics around start) = p.size intrinsics := by
  simp [Procedure.pieces, Procedure.size, Piece.size]

/-- Procedures take up the bytes that were computed for them. -/
@[simp] theorem piecesSize_proceduresPieces (intrinsics : Intrinsics) (around : Surroundings) (start : Nat)
    (ps : List Procedure) : piecesSize (proceduresPieces intrinsics around start ps) = proceduresSize intrinsics ps := by
  induction ps generalizing start with
  | nil => rfl
  | cons p rest ih => simp [proceduresPieces, proceduresSize, ih]

/-- The code of the host takes up the bytes that were computed for it. -/
@[simp] theorem piecesSize_trampolinePieces (around : Surroundings) : piecesSize (trampolinePieces around) = trampolineSize := by
  rw [trampolinePieces, piecesSize_append, piecesSize_cons, piecesSize_plainPieces, piecesSize_plainPieces, trampolineSize,
    Nat.add_assoc]
  rfl

/-- A program takes up the bytes that were computed for it. -/
theorem ProcedureTable.piecesSize_pieces (table : ProcedureTable) (intrinsics : Intrinsics) :
    piecesSize (table.pieces intrinsics) = table.codeSize intrinsics := by
  simp [ProcedureTable.pieces, ProcedureTable.codeSize, ProcedureTable.entry]

end RegisterCompiler
