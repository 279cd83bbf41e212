import RegisterCompiler.Proofs.Layout.TwoPass

/-!
# Targets that become known

The pieces of a statement depend on its surroundings only through the targets of its jumps and calls. So a statement that was
written with unknown surroundings turns into the one written with known surroundings when every target gets its offset
(`map_bodyPieces`), and it does not matter when it gets it.
-/

namespace RegisterCompiler

/-- A change of pieces that leads from one set of surroundings to another and leaves alone every piece whose target is known. -/
structure Surroundings.Leads (f : Piece → Piece) (before after : Surroundings) : Prop where
  plain : ∀ i, f (.plain i) = .plain i
  text : ∀ bytes, f (.text bytes) = .text bytes
  address : ∀ dest n, f (.address dest n) = .address dest n
  branch : ∀ code n, f (.branch code (.offset n)) = .branch code (.offset n)
  jump : ∀ n, f (.jump (.offset n)) = .jump (.offset n)
  stop : ∀ position, f (.jump (before.breakTarget position)) = .jump (after.breakTarget position)
  start : ∀ position, f (.jump (before.continueTarget position)) = .jump (after.continueTarget position)
  call : ∀ name, f (.call (before.callTarget name)) = .call (after.callTarget name)

section

variable {f : Piece → Piece} {before after : Surroundings}

/-- Inside a loop only the calls are left to become known. -/
theorem Surroundings.Leads.inLoop (h : Leads f before after) (start stop : Nat) :
    Leads f (before.inLoop start stop) (after.inLoop start stop) :=
  ⟨h.plain, h.text, h.address, h.branch, h.jump, fun _ => h.jump stop, fun _ => h.jump start, h.call⟩

/-- Resolving leaves plain instructions alone. -/
theorem map_plainPieces (h : before.Leads f after) (sequence : X64.Sequence) :
    (plainPieces sequence).map f = plainPieces sequence := by
  simp [plainPieces, h.plain]

/-- Resolving leaves a test alone, whose target is known. -/
theorem map_testPieces (h : before.Leads f after) (c : Condition) (target : Nat) :
    (c.testPieces target).map f = c.testPieces target := by
  simp [Condition.testPieces, map_plainPieces h, h.branch]

/-- So it does with a test that may be left out. -/
theorem map_skipPieces (h : before.Leads f after) (condition : Option Condition) (target : Nat) :
    (skipPieces condition target).map f = skipPieces condition target := by
  cases condition with
  | none => rfl
  | some c => exact map_testPieces h c target

/-- Resolving leaves a text alone, and what prints it. -/
theorem map_textPieces (h : before.Leads f after) (intrinsics : Intrinsics) (start : Nat) (text : List UInt8) :
    (textPieces intrinsics start text).map f = textPieces intrinsics start text := by
  simp [textPieces, map_plainPieces h, h.jump, h.text, h.address]

/-- Resolving the code of an action settles its jump out of a loop and its call. -/
theorem Action.map_pieces (h : before.Leads f after) (intrinsics : Intrinsics) (start : Nat) (position : Position)
    (a : Action) : (a.pieces intrinsics before start position).map f = a.pieces intrinsics after start position := by
  cases a with
  | printText text => exact map_textPieces h intrinsics start _
  | breakLoop => simp [Action.pieces, h.stop]
  | continueLoop => simp [Action.pieces, h.start]
  | call name => simp [Action.pieces, h.call]
  | _ => simp [Action.pieces, h.plain, map_plainPieces h]

end

mutual

/-- Resolving the code of a statement gives its code in the resolved surroundings. -/
theorem Statement.map_core {f : Piece → Piece} {before after : Surroundings} (h : before.Leads f after)
    (intrinsics : Intrinsics) (start : Nat) (s : Statement) :
    (s.core intrinsics before start).map f = s.core intrinsics after start := by
  cases s with
  | action a guard position => exact Action.map_pieces h intrinsics start position a
  | loop condition body guard position =>
    simp [Statement.core, map_skipPieces h, map_bodyPieces (h.inLoop _ _), h.jump]
  | branch condition thenBody elseBody guard position =>
    simp only [Statement.core]
    split <;> simp [map_testPieces h, map_bodyPieces h, h.jump]

/-- Statements with other surroundings differ in the targets of their jumps and calls. -/
theorem map_bodyPieces {f : Piece → Piece} {before after : Surroundings} (h : before.Leads f after)
    (intrinsics : Intrinsics) (start : Nat) (body : List Statement) :
    (bodyPieces intrinsics before start body).map f = bodyPieces intrinsics after start body := by
  cases body with
  | nil => rfl
  | cons s rest => simp [bodyPieces, map_skipPieces h, Statement.map_core h, map_bodyPieces h]

end

section

variable {f : Piece → Piece} {before after : Surroundings}

/-- Resolving the code of procedures gives their code in the resolved surroundings. -/
theorem map_proceduresPieces (h : before.Leads f after) (intrinsics : Intrinsics) (start : Nat) (ps : List Procedure) :
    (proceduresPieces intrinsics before start ps).map f = proceduresPieces intrinsics after start ps := by
  induction ps generalizing start with
  | nil => rfl
  | cons p rest ih => simp [proceduresPieces, Procedure.pieces, map_bodyPieces h, ih, h.plain]

/-- Resolving the code of the host settles its call. -/
theorem map_trampolinePieces (h : before.Leads f after) : (trampolinePieces before).map f = trampolinePieces after := by
  simp [trampolinePieces, map_plainPieces h, h.call]

end

/-! ## The three ways a target becomes known -/

namespace Piece

/-- A jump out of a loop goes to an offset. -/
def settleStop (n : Nat) : Piece → Piece
  | jump (.loopStop _) => jump (.offset n)
  | piece => piece

/-- A jump to the next round of a loop goes to an offset. -/
def settleStart (n : Nat) : Piece → Piece
  | jump (.loopStart _) => jump (.offset n)
  | piece => piece

/-- A call goes where its procedure begins. -/
def settleCall (offset? : String → Option Nat) : Piece → Piece
  | call (.procedure name) => call ((offset? name).elim (.procedure name) .offset)
  | piece => piece

/-- Settling jumps to the end of a loop does not change sizes. -/
theorem size_settleStop (n : Nat) (piece : Piece) : (piece.settleStop n).size = piece.size := by
  unfold settleStop
  split <;> rfl

/-- Settling jumps to the start of a loop does not change sizes. -/
theorem size_settleStart (n : Nat) (piece : Piece) : (piece.settleStart n).size = piece.size := by
  unfold settleStart
  split <;> rfl

/-- Settling calls does not change sizes. -/
theorem size_settleCall (offset? : String → Option Nat) (piece : Piece) : (piece.settleCall offset?).size = piece.size := by
  unfold settleCall
  split <;> rfl

end Piece

/-- When a loop ends, its two targets become known. -/
theorem Surroundings.leads_inLoop (start stop : Nat) :
    Leads (Piece.settleStart start ∘ Piece.settleStop stop) unknown (unknown.inLoop start stop) :=
  ⟨fun _ => rfl, fun _ => rfl, fun _ _ => rfl, fun _ _ => rfl, fun _ => rfl, fun _ => rfl, fun _ => rfl, fun _ => rfl⟩

/-- When every procedure has its offset, the targets of the calls become known. -/
theorem Surroundings.leads_settleCall (offset? : String → Option Nat) :
    Leads (Piece.settleCall offset?) unknown ⟨none, offset?⟩ := by
  refine ⟨fun _ => rfl, fun _ => rfl, fun _ _ => rfl, fun _ _ => rfl, fun _ => rfl, fun _ => rfl, fun _ => rfl, fun name => ?_⟩
  cases h : offset? name <;> simp [unknown, callTarget, Piece.settleCall, h]

end RegisterCompiler
