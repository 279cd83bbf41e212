import Mathlib
import RegisterCompiler.Program.Parser

/-!
# The grammar of programs

Derivations of the grammar as data: a `Terminal` is a token of a given kind, and every nonterminal is a type with one constructor
for each of its productions, so a value of it is a derivation. A derivation yields its tokens, from left to right, and a tree of
the program, in which everything stands where its first token begins; a procedure stands where its name does.
-/

namespace RegisterCompiler.Grammar

/-- A token of a kind. -/
structure Terminal (kind : TokenKind) where
  span : Span
  lexeme : String

/-- A terminal among other tokens. -/
def Terminal.token {kind : TokenKind} (t : Terminal kind) : Token := ⟨kind, t.span, t.lexeme⟩

/-- Where the first of some tokens begins. -/
def start : List Token → Position
  | [] => .origin
  | t :: _ => t.span.start

/-- Operands: `REG`, `INTEGER`, or `-` and `INTEGER`. -/
inductive Operand where
  | register {r : Register} (word : Terminal (.register r))
  | number {n : Fin 0x8000000000000000} (literal : Terminal (.integer n))
  | negative {n : Fin 0x8000000000000000} (minus : Terminal (.symbol (.operation .sub))) (literal : Terminal (.integer n))

/-- Conditions: `operand CMP operand`. -/
structure Condition where
  lhs : Operand
  {comparison : Comparison}
  operator : Terminal (.symbol (.comparison comparison))
  rhs : Operand

/-- The end of a statement: `[if condition] ;`. -/
inductive Ending where
  | unguarded (semicolon : Terminal (.symbol .semicolon))
  | guarded (keyword : Terminal (.keyword .guard)) (condition : Condition) (semicolon : Terminal (.symbol .semicolon))

/-- Statements without a body, up to their end: `REG = operand`, `REG = operand OP operand`, `REG OP= operand`, `break`,
`continue`, `return`, `IDENT`, `<< operand`, `<< STRING`, `push REG` and `pop REG`. -/
inductive Action where
  | assign {dest : Register} (register : Terminal (.register dest)) (equals : Terminal (.symbol .assign)) (source : Operand)
  | compute {dest : Register} {op : Operation} (register : Terminal (.register dest)) (equals : Terminal (.symbol .assign))
    (lhs : Operand) (operator : Terminal (.symbol (.operation op))) (rhs : Operand)
  | update {dest : Register} {op : Operation} (register : Terminal (.register dest))
    (operator : Terminal (.symbol (.update op))) (source : Operand)
  | breakLoop (keyword : Terminal (.keyword .breakLoop))
  | continueLoop (keyword : Terminal (.keyword .continueLoop))
  | returnCall (keyword : Terminal (.keyword .returnCall))
  | call {name : String} (identifier : Terminal (.identifier name))
  | print (output : Terminal (.symbol .output)) (source : Operand)
  | printText {text : String} (output : Terminal (.symbol .output)) (literal : Terminal (.text text))
  | push {r : Register} (keyword : Terminal (.keyword .push)) (register : Terminal (.register r))
  | pop {r : Register} (keyword : Terminal (.keyword .pop)) (register : Terminal (.register r))

/-- The beginning of a loop: `loop [( condition )]`. -/
inductive LoopHead where
  | endless (keyword : Terminal (.keyword .loop))
  | conditional (keyword : Terminal (.keyword .loop)) (opening : Terminal (.symbol .parenOpen)) (condition : Condition)
    (closing : Terminal (.symbol .parenClose))

/-- The beginning of a branch: `branch ( condition )`. -/
structure BranchHead where
  keyword : Terminal (.keyword .branch)
  opening : Terminal (.symbol .parenOpen)
  condition : Condition
  closing : Terminal (.symbol .parenClose)

/-- Statements: an action and its end, a loop with its block, and a branch with one block, or with two blocks and `else` between
them. A block is any number of statements between braces. -/
inductive Statement where
  | action (action : Action) (ending : Ending)
  | loop (head : LoopHead) (opening : Terminal (.symbol .braceOpen)) (body : List Statement)
    (closing : Terminal (.symbol .braceClose))
  | branch (head : BranchHead) (opening : Terminal (.symbol .braceOpen)) (body : List Statement)
    (closing : Terminal (.symbol .braceClose))
  | branchElse (head : BranchHead) (opening : Terminal (.symbol .braceOpen)) (body : List Statement)
    (closing : Terminal (.symbol .braceClose)) (otherwise : Terminal (.keyword .otherwise))
    (elseOpening : Terminal (.symbol .braceOpen)) (elseBody : List Statement) (elseClosing : Terminal (.symbol .braceClose))

/-- Procedures: `proc IDENT` and a block. -/
structure Procedure where
  keyword : Terminal (.keyword .procedure)
  {name : String}
  identifier : Terminal (.identifier name)
  opening : Terminal (.symbol .braceOpen)
  body : List Statement
  closing : Terminal (.symbol .braceClose)

/-- Programs: any number of procedures. -/
abbrev Program := List Procedure

/-! ## The tokens of a derivation -/

/-- The tokens of an operand. -/
def Operand.tokens : Operand → List Token
  | register word => [word.token]
  | number literal => [literal.token]
  | negative minus literal => [minus.token, literal.token]

/-- The tokens of a condition. -/
def Condition.tokens (c : Condition) : List Token := c.lhs.tokens ++ c.operator.token :: c.rhs.tokens

/-- The tokens of an end. -/
def Ending.tokens : Ending → List Token
  | unguarded semicolon => [semicolon.token]
  | guarded keyword condition semicolon => keyword.token :: condition.tokens ++ [semicolon.token]

/-- The tokens of an action. -/
def Action.tokens : Action → List Token
  | assign register equals source => register.token :: equals.token :: source.tokens
  | compute register equals lhs operator rhs =>
    register.token :: equals.token :: lhs.tokens ++ operator.token :: rhs.tokens
  | update register operator source => register.token :: operator.token :: source.tokens
  | breakLoop keyword => [keyword.token]
  | continueLoop keyword => [keyword.token]
  | returnCall keyword => [keyword.token]
  | call identifier => [identifier.token]
  | print output source => output.token :: source.tokens
  | printText output literal => [output.token, literal.token]
  | push keyword register => [keyword.token, register.token]
  | pop keyword register => [keyword.token, register.token]

/-- The tokens of the beginning of a loop. -/
def LoopHead.tokens : LoopHead → List Token
  | endless keyword => [keyword.token]
  | conditional keyword opening condition closing =>
    keyword.token :: opening.token :: condition.tokens ++ [closing.token]

/-- The tokens of the beginning of a branch. -/
def BranchHead.tokens (h : BranchHead) : List Token :=
  h.keyword.token :: h.opening.token :: h.condition.tokens ++ [h.closing.token]

mutual

/-- The tokens of a statement. -/
def Statement.tokens : Statement → List Token
  | .action action ending => action.tokens ++ ending.tokens
  | .loop head opening body closing => head.tokens ++ opening.token :: bodyTokens body ++ [closing.token]
  | .branch head opening body closing => head.tokens ++ opening.token :: bodyTokens body ++ [closing.token]
  | .branchElse head opening body closing otherwise elseOpening elseBody elseClosing =>
    head.tokens ++ opening.token :: bodyTokens body ++ closing.token :: otherwise.token :: elseOpening.token ::
      bodyTokens elseBody ++ [elseClosing.token]

/-- The tokens of statements. -/
def bodyTokens : List Statement → List Token
  | [] => []
  | s :: rest => s.tokens ++ bodyTokens rest

end

/-- The tokens of a procedure. -/
def Procedure.tokens (p : Procedure) : List Token :=
  p.keyword.token :: p.identifier.token :: p.opening.token :: bodyTokens p.body ++ [p.closing.token]

/-- The tokens of a program. -/
def Program.tokens (p : Program) : List Token := p.flatMap Procedure.tokens

/-! ## The tree of a derivation -/

/-- An integer below 2 ^ 63 is a 64-bit number, and so is its negation. -/
theorem literal_bounds (n : Fin 0x8000000000000000) : (Int64.minValue.toInt ≤ n.val ∧ n.val ≤ Int64.maxValue.toInt) ∧
    Int64.minValue.toInt ≤ -(n.val : Int) ∧ -(n.val : Int) ≤ Int64.maxValue.toInt := by
  have hmin : Int64.minValue.toInt = -9223372036854775808 := by decide
  have hmax : Int64.maxValue.toInt = 9223372036854775807 := by decide
  have := n.isLt
  omega

/-- What an operand denotes. Numbers are exact, with their sign: neither they nor their negations overflow. -/
def Operand.value : Operand → Value
  | @register r _ => .register r
  | @number n _ => .immediate (Int64.ofIntLE n.val (literal_bounds n).1.1 (literal_bounds n).1.2)
  | @negative n _ _ => .immediate (Int64.ofIntLE (-n.val) (literal_bounds n).2.1 (literal_bounds n).2.2)

/-- The tree of an operand. -/
def Operand.tree (o : Operand) : RegisterCompiler.Operand := ⟨o.value, start o.tokens⟩

/-- The tree of a condition. -/
def Condition.tree (c : Condition) : RegisterCompiler.Condition := ⟨c.lhs.tree, c.comparison, c.rhs.tree, start c.tokens⟩

/-- The guard in front of an end. -/
def Ending.guard : Ending → Option RegisterCompiler.Condition
  | unguarded _ => none
  | guarded _ condition _ => some condition.tree

/-- The tree of an action. -/
def Action.tree : Action → RegisterCompiler.Action
  | @assign dest _ _ source => .assign dest source.tree
  | @compute dest op _ _ lhs _ rhs => .compute dest op lhs.tree rhs.tree
  | @update dest op _ _ source => .update dest op source.tree
  | breakLoop _ => .breakLoop
  | continueLoop _ => .continueLoop
  | returnCall _ => .returnCall
  | @call name _ => .call name
  | print _ source => .print source.tree
  | @printText text _ _ => .printText text
  | @push r _ _ => .push r
  | @pop r _ _ => .pop r

/-- The condition of a loop. -/
def LoopHead.guard : LoopHead → Option RegisterCompiler.Condition
  | endless _ => none
  | conditional _ _ condition _ => some condition.tree

mutual

/-- The tree of a statement. Only an action has a guard. -/
def Statement.tree : Statement → RegisterCompiler.Statement
  | .action action ending => .action action.tree ending.guard (start (Statement.tokens (.action action ending)))
  | .loop head opening body closing =>
    .loop head.guard (bodyTrees body) none (start (Statement.tokens (.loop head opening body closing)))
  | .branch head opening body closing =>
    .branch head.condition.tree (bodyTrees body) [] none (start (Statement.tokens (.branch head opening body closing)))
  | .branchElse head opening body closing otherwise elseOpening elseBody elseClosing =>
    .branch head.condition.tree (bodyTrees body) (bodyTrees elseBody) none
      (start (Statement.tokens (.branchElse head opening body closing otherwise elseOpening elseBody elseClosing)))

/-- The trees of statements. -/
def bodyTrees : List Statement → List RegisterCompiler.Statement
  | [] => []
  | s :: rest => s.tree :: bodyTrees rest

end

/-- The tree of a procedure. -/
def Procedure.tree (p : Procedure) : RegisterCompiler.Procedure := ⟨p.name, bodyTrees p.body, p.identifier.span.start⟩

/-- The trees of a program, in order. -/
def Program.trees (p : Program) : List RegisterCompiler.Procedure := p.map Procedure.tree

/-! ## First tokens -/

/-- Every action is written by some token. -/
theorem Action.tokens_ne_nil (a : Action) : a.tokens ≠ [] := by cases a <;> simp [Action.tokens]

/-- Tokens begin where the first of them does, whatever stands behind. -/
theorem start_append {a : List Token} (h : a ≠ []) (b : List Token) : start (a ++ b) = start a := by
  cases a with
  | nil => exact absurd rfl h
  | cons t rest => rfl

/-- A statement begins with a token that closes no block and begins no other block. -/
theorem Statement.exists_first (d : Statement) :
    ∃ t rest, d.tokens = t :: rest ∧ t.kind ≠ .symbol .braceClose ∧ t.kind ≠ .keyword .otherwise := by
  cases d with
  | action a ending => cases a <;> exact ⟨_, _, rfl, nofun, nofun⟩
  | loop head opening body closing => cases head <;> exact ⟨_, _, rfl, nofun, nofun⟩
  | branch head opening body closing => exact ⟨_, _, rfl, nofun, nofun⟩
  | branchElse head opening body closing otherwise elseOpening elseBody elseClosing => exact ⟨_, _, rfl, nofun, nofun⟩

/-- What may follow a statement: behind a branch without `else`, no `else`. -/
def Statement.Before : Statement → List Token → Prop
  | .branch _ _ _ _, rest => ∀ t, rest.head? = some t → t.kind ≠ .keyword .otherwise
  | _, _ => True

/-- The rest of a block may follow any statement. -/
theorem Statement.before_block (d : Statement) (ds : List Statement) (closing : Terminal (.symbol .braceClose))
    (rest : List Token) : d.Before (bodyTokens ds ++ closing.token :: rest) := by
  cases d with
  | branch head opening body closing' =>
    intro t ht
    cases ds with
    | nil =>
      obtain rfl := Option.some.inj ht
      exact nofun
    | cons d ds =>
      obtain ⟨first, others, hfirst, -, hne⟩ := d.exists_first
      rw [bodyTokens, hfirst] at ht
      obtain rfl := Option.some.inj ht
      exact hne
  | _ => trivial

/-! ## Derivations do not reach the end of the input -/

/-- Tokens none of which is the end of the input. -/
def Inside (tokens : List Token) : Prop := ∀ t ∈ tokens, t.kind ≠ .endOfInput

@[simp] theorem inside_nil : Inside [] := fun _ h => absurd h List.not_mem_nil

@[simp] theorem inside_cons (t : Token) (rest : List Token) : Inside (t :: rest) ↔ t.kind ≠ .endOfInput ∧ Inside rest :=
  List.forall_mem_cons

/-- Tokens hold no end of the input if neither part of them does. -/
@[simp] theorem inside_append (a b : List Token) : Inside (a ++ b) ↔ Inside a ∧ Inside b := List.forall_mem_append

/-- The token of a terminal is of its kind. -/
@[simp] theorem Terminal.kind_token {kind : TokenKind} (t : Terminal kind) : t.token.kind = kind := rfl

@[simp] theorem Operand.inside (o : Operand) : Inside o.tokens := by cases o <;> simp [Operand.tokens]

@[simp] theorem Condition.inside (c : Condition) : Inside c.tokens := by simp [Condition.tokens]

@[simp] theorem Ending.inside (e : Ending) : Inside e.tokens := by cases e <;> simp [Ending.tokens]

@[simp] theorem Action.inside (a : Action) : Inside a.tokens := by cases a <;> simp [Action.tokens]

@[simp] theorem LoopHead.inside (l : LoopHead) : Inside l.tokens := by cases l <;> simp [LoopHead.tokens]

@[simp] theorem BranchHead.inside (b : BranchHead) : Inside b.tokens := by simp [BranchHead.tokens]

mutual

/-- No end of the input stands in a statement. -/
theorem Statement.inside (d : Statement) : Inside d.tokens := by
  cases d with
  | action a ending => simp [Statement.tokens]
  | loop head opening body closing => simp [Statement.tokens, inside_bodyTokens body]
  | branch head opening body closing => simp [Statement.tokens, inside_bodyTokens body]
  | branchElse head opening body closing otherwise elseOpening elseBody elseClosing =>
    simp [Statement.tokens, inside_bodyTokens body, inside_bodyTokens elseBody]

/-- No end of the input stands in a body. -/
theorem inside_bodyTokens (ds : List Statement) : Inside (bodyTokens ds) := by
  cases ds with
  | nil => exact inside_nil
  | cons d ds => exact (inside_append _ _).2 ⟨d.inside, inside_bodyTokens ds⟩

end

/-- No end of the input stands in a procedure. -/
theorem Procedure.inside (p : Procedure) : Inside p.tokens := by simp [Procedure.tokens, inside_bodyTokens p.body]

/-- No token of a program is the end of the input. -/
theorem Program.inside (p : Program) : Inside p.tokens := by
  induction p with
  | nil => exact inside_nil
  | cons d ds ih => exact (inside_append _ _).2 ⟨d.inside, ih⟩

end RegisterCompiler.Grammar
