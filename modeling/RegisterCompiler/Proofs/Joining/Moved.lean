import Mathlib
import RegisterCompiler.Proofs.Lexing.Located
import RegisterCompiler.Proofs.Parsing.Accepted

/-!
# What stands behind a text

A text moves what stands behind it by its bytes and its lines (`Shift`). Tokens, programs and derivations of the grammar are
moved position by position: the tokens of a moved derivation are its moved tokens, and its tree is the moved tree. So moved
tokens derive the moved program (`Program.tokens_moved`, `Program.trees_moved`), and nothing needs to be known of the parser.
-/

namespace RegisterCompiler

/-! ## Positions -/

/-- How far a text moves what stands behind it. -/
structure Shift where
  bytes : Nat
  lines : Nat

/-- The shift of what stands behind a source and a line feed. -/
def Shift.behind (source : List UInt8) : Shift := ⟨source.length + 1, source.count lineFeed + 1⟩

/-- A position with the bytes and lines in front of it raised; its column stays. -/
def Position.moved (d : Shift) (p : Position) : Position := ⟨p.offset + d.bytes, p.line + d.lines, p.column⟩

/-- A stretch of source, moved. -/
def Span.moved (d : Shift) (s : Span) : Span := ⟨s.start.moved d, s.stop.moved d⟩

/-- A token with its span moved; its kind and its text stay. -/
def Token.moved (d : Shift) (t : Token) : Token := { t with span := t.span.moved d }

/-- A byte passed at a moved position leads to the moved position behind it. -/
theorem Position.step_moved (d : Shift) (p : Position) (b : UInt8) : (p.moved d).step b = (p.step b).moved d := by
  unfold step
  split <;> simp only [moved, Nat.add_right_comm]

/-- So do bytes. -/
theorem Position.advance_moved (d : Shift) (p : Position) (bytes : List UInt8) :
    (p.moved d).advance bytes = (p.advance bytes).moved d := by
  induction bytes generalizing p with
  | nil => rfl
  | cons b bytes ih => rw [advance_cons, advance_cons, step_moved, ih]

/-- Behind a source and a line feed a new line begins. -/
theorem Position.origin_moved (source : List UInt8) :
    Position.origin.moved (.behind source) = Position.origin.advance (source ++ [lineFeed]) := by
  rw [advance_origin]
  simp [moved, origin, Shift.behind]

/-! ## Programs -/

/-- An operand, moved. -/
def Operand.moved (d : Shift) (o : Operand) : Operand := { o with position := o.position.moved d }

/-- A condition, moved. -/
def Condition.moved (d : Shift) (c : Condition) : Condition :=
  ⟨c.lhs.moved d, c.comparison, c.rhs.moved d, c.position.moved d⟩

/-- An action, moved. -/
def Action.moved (d : Shift) : Action → Action
  | assign dest source => assign dest (source.moved d)
  | update dest op source => update dest op (source.moved d)
  | compute dest op lhs rhs => compute dest op (lhs.moved d) (rhs.moved d)
  | breakLoop => breakLoop
  | continueLoop => continueLoop
  | returnCall => returnCall
  | call procedure => call procedure
  | print source => print (source.moved d)
  | printText text => printText text
  | push r => push r
  | pop r => pop r

mutual

/-- A statement, moved. -/
def Statement.moved (d : Shift) : Statement → Statement
  | .action a guard position => .action (a.moved d) (guard.map (Condition.moved d)) (position.moved d)
  | .loop condition statements guard position =>
    .loop (condition.map (Condition.moved d)) (movedBody d statements) (guard.map (Condition.moved d)) (position.moved d)
  | .branch condition thenBody elseBody guard position =>
    .branch (condition.moved d) (movedBody d thenBody) (movedBody d elseBody) (guard.map (Condition.moved d))
      (position.moved d)

/-- Statements, moved. -/
def movedBody (d : Shift) : List Statement → List Statement
  | [] => []
  | s :: rest => s.moved d :: movedBody d rest

end

/-- A procedure, moved. -/
def Procedure.moved (d : Shift) (p : Procedure) : Procedure := ⟨p.name, movedBody d p.body, p.position.moved d⟩

/-! ## Derivations -/

namespace Grammar

variable (d : Shift)

/-- A terminal, moved. -/
def Terminal.moved {kind : TokenKind} (t : Terminal kind) : Terminal kind := ⟨t.span.moved d, t.lexeme⟩

/-- The derivation of an operand, moved. -/
def Operand.moved : Operand → Operand
  | register word => register (word.moved d)
  | number literal => number (literal.moved d)
  | negative minus literal => negative (minus.moved d) (literal.moved d)

/-- The derivation of a condition, moved. -/
def Condition.moved (c : Condition) : Condition := ⟨c.lhs.moved d, c.operator.moved d, c.rhs.moved d⟩

/-- The derivation of an end, moved. -/
def Ending.moved : Ending → Ending
  | unguarded semicolon => unguarded (semicolon.moved d)
  | guarded keyword condition semicolon => guarded (keyword.moved d) (condition.moved d) (semicolon.moved d)

/-- The derivation of an action, moved. -/
def Action.moved : Action → Action
  | assign register equals source => assign (register.moved d) (equals.moved d) (source.moved d)
  | compute register equals lhs operator rhs =>
    compute (register.moved d) (equals.moved d) (lhs.moved d) (operator.moved d) (rhs.moved d)
  | update register operator source => update (register.moved d) (operator.moved d) (source.moved d)
  | breakLoop keyword => breakLoop (keyword.moved d)
  | continueLoop keyword => continueLoop (keyword.moved d)
  | returnCall keyword => returnCall (keyword.moved d)
  | call identifier => call (identifier.moved d)
  | print output source => print (output.moved d) (source.moved d)
  | printText output literal => printText (output.moved d) (literal.moved d)
  | push keyword register => push (keyword.moved d) (register.moved d)
  | pop keyword register => pop (keyword.moved d) (register.moved d)

/-- The derivation of the beginning of a loop, moved. -/
def LoopHead.moved : LoopHead → LoopHead
  | endless keyword => endless (keyword.moved d)
  | conditional keyword opening condition closing =>
    conditional (keyword.moved d) (opening.moved d) (condition.moved d) (closing.moved d)

/-- The derivation of the beginning of a branch, moved. -/
def BranchHead.moved (h : BranchHead) : BranchHead :=
  ⟨h.keyword.moved d, h.opening.moved d, h.condition.moved d, h.closing.moved d⟩

mutual

/-- The derivation of a statement, moved. -/
def Statement.moved : Statement → Statement
  | .action action ending => .action (action.moved d) (ending.moved d)
  | .loop head opening body closing => .loop (head.moved d) (opening.moved d) (movedBody body) (closing.moved d)
  | .branch head opening body closing => .branch (head.moved d) (opening.moved d) (movedBody body) (closing.moved d)
  | .branchElse head opening body closing otherwise elseOpening elseBody elseClosing =>
    .branchElse (head.moved d) (opening.moved d) (movedBody body) (closing.moved d) (otherwise.moved d)
      (elseOpening.moved d) (movedBody elseBody) (elseClosing.moved d)

/-- The derivations of statements, moved. -/
def movedBody : List Statement → List Statement
  | [] => []
  | s :: rest => s.moved :: movedBody rest

end

/-- The derivation of a procedure, moved. -/
def Procedure.moved (p : Procedure) : Procedure :=
  ⟨p.keyword.moved d, p.identifier.moved d, p.opening.moved d, movedBody d p.body, p.closing.moved d⟩

/-! ### The tokens of a moved derivation are the moved tokens -/

/-- The token of a moved terminal is its token moved. -/
theorem Terminal.token_moved {kind : TokenKind} (t : Terminal kind) : (t.moved d).token = t.token.moved d := rfl

/-- The tokens of a moved operand are its tokens moved. -/
theorem Operand.tokens_moved (o : Operand) : (o.moved d).tokens = o.tokens.map (Token.moved d) := by cases o <;> rfl

/-- The tokens of a moved condition are its tokens moved. -/
theorem Condition.tokens_moved (c : Condition) : (c.moved d).tokens = c.tokens.map (Token.moved d) := by
  simp [Condition.tokens, Condition.moved, Operand.tokens_moved, Terminal.token_moved]

/-- The tokens of a moved ending are its tokens moved. -/
theorem Ending.tokens_moved (e : Ending) : (e.moved d).tokens = e.tokens.map (Token.moved d) := by
  cases e <;> simp [Ending.tokens, Ending.moved, Condition.tokens_moved, Terminal.token_moved]

/-- The tokens of a moved action are its tokens moved. -/
theorem Action.tokens_moved (a : Action) : (a.moved d).tokens = a.tokens.map (Token.moved d) := by
  cases a <;> simp [Action.tokens, Action.moved, Operand.tokens_moved, Terminal.token_moved]

/-- The tokens of the moved head of a loop are its tokens moved. -/
theorem LoopHead.tokens_moved (l : LoopHead) : (l.moved d).tokens = l.tokens.map (Token.moved d) := by
  cases l <;> simp [LoopHead.tokens, LoopHead.moved, Condition.tokens_moved, Terminal.token_moved]

/-- The tokens of the moved head of a branch are its tokens moved. -/
theorem BranchHead.tokens_moved (b : BranchHead) : (b.moved d).tokens = b.tokens.map (Token.moved d) := by
  simp [BranchHead.tokens, BranchHead.moved, Condition.tokens_moved, Terminal.token_moved]

mutual

/-- The tokens of a moved statement are its tokens moved. -/
theorem Statement.tokens_moved (s : Statement) : (s.moved d).tokens = s.tokens.map (Token.moved d) := by
  cases s with
  | action action ending => simp [Statement.tokens, Statement.moved, Action.tokens_moved, Ending.tokens_moved]
  | loop head opening body closing =>
    simp [Statement.tokens, Statement.moved, LoopHead.tokens_moved, Terminal.token_moved, bodyTokens_moved body]
  | branch head opening body closing =>
    simp [Statement.tokens, Statement.moved, BranchHead.tokens_moved, Terminal.token_moved, bodyTokens_moved body]
  | branchElse head opening body closing otherwise elseOpening elseBody elseClosing =>
    simp [Statement.tokens, Statement.moved, BranchHead.tokens_moved, Terminal.token_moved, bodyTokens_moved body,
      bodyTokens_moved elseBody]

/-- The tokens of a moved body are its tokens moved. -/
theorem bodyTokens_moved (body : List Statement) : bodyTokens (movedBody d body) = (bodyTokens body).map (Token.moved d) := by
  cases body with
  | nil => rfl
  | cons s rest => rw [movedBody, bodyTokens, bodyTokens, List.map_append, s.tokens_moved, bodyTokens_moved rest]

end

/-- The tokens of a moved procedure are its tokens moved. -/
theorem Procedure.tokens_moved (p : Procedure) : (p.moved d).tokens = p.tokens.map (Token.moved d) := by
  simp [Procedure.tokens, Procedure.moved, Terminal.token_moved, bodyTokens_moved]

/-- The tokens of a moved program are its tokens moved. -/
theorem Program.tokens_moved (p : Program) :
    Program.tokens (p.map (Procedure.moved d)) = (Program.tokens p).map (Token.moved d) := by
  simp only [Program.tokens, List.flatMap_map, List.map_flatMap, Procedure.tokens_moved]

/-! ### The tree of a moved derivation is the moved tree -/

/-- Moved tokens start where the tokens start, moved. -/
theorem start_moved {tokens : List Token} (h : tokens ≠ []) : start (tokens.map (Token.moved d)) = (start tokens).moved d := by
  cases tokens with
  | nil => exact absurd rfl h
  | cons t rest => rfl

/-- The tree of a moved operand is its tree moved. -/
theorem Operand.tree_moved (o : Operand) : (o.moved d).tree = o.tree.moved d := by cases o <;> rfl

/-- The tree of a moved condition is its tree moved. -/
theorem Condition.tree_moved (c : Condition) : (c.moved d).tree = c.tree.moved d := by
  have hstart : start (c.moved d).tokens = (start c.tokens).moved d := by
    rw [Condition.tokens_moved]
    exact start_moved d (by simp [Condition.tokens])
  rw [Condition.tree, hstart]
  simp only [Condition.moved, Operand.tree_moved]
  rfl

/-- The guard of a moved ending is its guard moved. -/
theorem Ending.guard_moved (e : Ending) : (e.moved d).guard = e.guard.map (RegisterCompiler.Condition.moved d) := by
  cases e with
  | unguarded semicolon => rfl
  | guarded keyword condition semicolon => exact congrArg some (condition.tree_moved d)

/-- The tree of a moved action is its tree moved. -/
theorem Action.tree_moved (a : Action) : (a.moved d).tree = a.tree.moved d := by
  cases a <;> simp only [Action.moved, Action.tree, RegisterCompiler.Action.moved, Operand.tree_moved]

/-- The condition of the moved head of a loop is its condition moved. -/
theorem LoopHead.guard_moved (l : LoopHead) : (l.moved d).guard = l.guard.map (RegisterCompiler.Condition.moved d) := by
  cases l with
  | endless keyword => rfl
  | conditional keyword opening condition closing => exact congrArg some (condition.tree_moved d)

/-- A moved statement starts where it starts, moved. -/
theorem Statement.start_moved (s : Statement) : Grammar.start (s.moved d).tokens = (Grammar.start s.tokens).moved d := by
  obtain ⟨t, rest, hfirst, -⟩ := s.exists_first
  rw [Statement.tokens_moved]
  exact Grammar.start_moved d (by simp [hfirst])

mutual

/-- The tree of a moved statement is its tree moved. -/
theorem Statement.tree_moved (s : Statement) : (s.moved d).tree = s.tree.moved d := by
  have hstart := s.start_moved d
  cases s with
  | action action ending =>
    simp only [Statement.moved, Statement.tree, RegisterCompiler.Statement.moved, Action.tree_moved, Ending.guard_moved]
      at hstart ⊢
    rw [hstart]
  | loop head opening body closing =>
    simp only [Statement.moved, Statement.tree, RegisterCompiler.Statement.moved, LoopHead.guard_moved, bodyTrees_moved body]
      at hstart ⊢
    rw [hstart]
    rfl
  | branch head opening body closing =>
    simp only [Statement.moved, Statement.tree, RegisterCompiler.Statement.moved, bodyTrees_moved body] at hstart ⊢
    rw [hstart]
    simp only [BranchHead.moved, Condition.tree_moved]
    rfl
  | branchElse head opening body closing otherwise elseOpening elseBody elseClosing =>
    simp only [Statement.moved, Statement.tree, RegisterCompiler.Statement.moved, bodyTrees_moved body,
      bodyTrees_moved elseBody] at hstart ⊢
    rw [hstart]
    simp only [BranchHead.moved, Condition.tree_moved]
    rfl

/-- The trees of a moved body are its trees moved. -/
theorem bodyTrees_moved (body : List Statement) :
    bodyTrees (movedBody d body) = RegisterCompiler.movedBody d (bodyTrees body) := by
  cases body with
  | nil => rfl
  | cons s rest =>
    rw [movedBody, bodyTrees, bodyTrees, RegisterCompiler.movedBody, s.tree_moved, bodyTrees_moved rest]

end

/-- The tree of a moved procedure is its tree moved. -/
theorem Procedure.tree_moved (p : Procedure) : (p.moved d).tree = p.tree.moved d := by
  simp only [Procedure.tree, Procedure.moved, bodyTrees_moved]
  rfl

/-- The trees of a moved program are its trees moved. -/
theorem Program.trees_moved (p : Program) :
    Program.trees (p.map (Procedure.moved d)) = (Program.trees p).map (RegisterCompiler.Procedure.moved d) := by
  simp only [Program.trees, List.map_map]
  exact List.map_congr_left fun q _ => q.tree_moved d

end Grammar

end RegisterCompiler
