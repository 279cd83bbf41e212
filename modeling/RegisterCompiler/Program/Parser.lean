import RegisterCompiler.Program.Tree
import RegisterCompiler.Source.Lexer

/-!
# From tokens to programs

A parser reads a `Stream` of tokens by one token of lookahead and stops at the first fault. A stream that just stops is read as
if the end of input stood behind its last token. Reading a part of a program takes at least one token from the stream, which the
parts return as a proof, so nesting needs no bound; everything behind the first end of input is left alone.
-/

namespace RegisterCompiler

/-- What is wrong with a token stream. -/
inductive ParseFault where
  | topLevel
  | procedureName
  | procedureBody
  | statement
  | semicolon
  | assignment
  | semicolonAfterCondition
  | semicolonOrCondition
  | semicolonOrOperator
  | loopConditionEnd
  | loopBody
  | branchCondition
  | branchConditionEnd
  | branchBody
  | elseBody
  | comparison
  | numberAfterMinus
  | vectorRegister
  | floatImmediate
  | operand
  | register
  /-- A second procedure of one name. -/
  | redeclared (name : String)
  /-- A malformed token. -/
  | lexical (fault : LexFault)
  deriving DecidableEq, Repr

/-- The text of a fault. -/
def ParseFault.message : ParseFault → String
  | topLevel => "Unrecognized top-level declaration."
  | procedureName => "Expected identifier in procedure declaration."
  | procedureBody => "Expected \x7b in procedure declaration."
  | statement => "Unrecognized statement."
  | semicolon => "Expected ;."
  | assignment => "Expected =, +=, -=, *=, /=, %=, &=, |= or ^=."
  | semicolonAfterCondition => "Expected ; after condition."
  | semicolonOrCondition => "Expected ; or condition after source operand."
  | semicolonOrOperator => "Expected ;, +, -, *, /, %, &, | or ^."
  | loopConditionEnd => "Expected ) after loop condition."
  | loopBody => "Expected \x7b in loop statement."
  | branchCondition => "Expected ( after branch keyword."
  | branchConditionEnd => "Expected ) after branch condition."
  | branchBody => "Expected \x7b in branch statement."
  | elseBody => "Expected \x7b in else statement."
  | comparison => "Unrecognized comparison operator, expected <, <=, >, >=, == or !=."
  | numberAfterMinus => "Number expected after minus sign to form an immediate value."
  | vectorRegister => "Vector registers are not supported."
  | floatImmediate => "Floating-point immediates are not supported."
  | operand => "Unrecognized operand, expected register or immediate value."
  | register => "Expected register."
  | redeclared name => "Procedure \"" ++ name ++ "\" redeclaration."
  | lexical fault => fault.message

/-- A fault and where it is. -/
structure ParseError where
  fault : ParseFault
  position : Position
  deriving DecidableEq, Repr

/-- The text of a parse error. -/
def ParseError.text (e : ParseError) : String := e.fault.message ++ " at " ++ e.position.text

/-- Tokens to be read, and the end of the one read last. -/
structure Stream where
  tokens : List Token
  last : Position
  deriving DecidableEq, Repr

namespace Stream

/-- A stream of which nothing has been read. -/
def ofTokens (tokens : List Token) : Stream := ⟨tokens, Position.origin⟩

/-- The number of tokens to be read. -/
def size (s : Stream) : Nat := s.tokens.length

/-- The kind of the next token. -/
def kind (s : Stream) : TokenKind :=
  match s.tokens with
  | [] => .endOfInput
  | t :: _ => t.kind

/-- Where the next token begins. -/
def position (s : Stream) : Position :=
  match s.tokens with
  | [] => s.last
  | t :: _ => t.span.start

/-- The stream behind the next token. -/
def advance (s : Stream) : Stream :=
  match s.tokens with
  | [] => s
  | t :: rest => ⟨rest, t.span.stop⟩

/-- The error for a next token that does not fit; a malformed token speaks for itself. -/
def error (s : Stream) (fault : ParseFault) : ParseError :=
  match s.kind with
  | .malformed lexical => ⟨.lexical lexical, s.position⟩
  | _ => ⟨fault, s.position⟩

/-- A stream gets shorter by its first token, unless it is at its end. -/
theorem size_advance_lt {s : Stream} (h : s.kind ≠ .endOfInput) : s.advance.size < s.size := by
  obtain ⟨tokens, last⟩ := s
  cases tokens with
  | nil => exact absurd rfl h
  | cons t rest => simp [advance, size]

/-- A stream behind at least one token of another. -/
abbrev After (s : Stream) := { r : Stream // r.size < s.size }

/-- Either what was read and the stream behind it, or the first error. -/
abbrev Reads (s : Stream) (α : Type) := Except ParseError (α × After s)

/-- A reading that starts behind an earlier stream, as a reading of that stream. -/
def After.reads {s : Stream} {α : Type} (r : After s) (x : Reads r.val α) : Reads s α :=
  match x with
  | .error e => .error e
  | .ok (a, q) => .ok (a, ⟨q.val, Nat.lt_trans q.property r.property⟩)

/-- A reading with its result changed. -/
def Reads.map {s : Stream} {α β : Type} (f : α → β) (x : Reads s α) : Reads s β :=
  match x with
  | .error e => .error e
  | .ok (a, r) => .ok (f a, r)

/-- One reading and then another one behind it. -/
def Reads.andThen {s : Stream} {α β : Type} (x : Reads s α) (f : α → (r : Stream) → Reads r β) : Reads s β :=
  match x with
  | .error e => .error e
  | .ok (a, r) => r.reads (f a r.val)

/-- Reads one token, which is not the end. -/
def token {α : Type} (s : Stream) (h : s.kind ≠ .endOfInput) (a : α) : Reads s α := .ok (a, ⟨s.advance, size_advance_lt h⟩)

/-- Passes one token, which is not the end, and reads on behind it. -/
def skip {α : Type} (s : Stream) (h : s.kind ≠ .endOfInput) (f : (r : Stream) → Reads r α) : Reads s α :=
  After.reads ⟨s.advance, size_advance_lt h⟩ (f s.advance)

/-- Reads the given symbol. -/
def expect (s : Stream) (symbol : Symbol) (fault : ParseFault) : Reads s Unit :=
  if h : s.kind = .symbol symbol then s.token (by simp [h]) () else .error (s.error fault)

/-- Reads an operand: a register, a number, or a minus and a number. -/
def operand (s : Stream) : Reads s Operand :=
  match h : s.kind with
  | .register r => s.token (by simp [h]) ⟨.register r, s.position⟩
  | .integer n => s.token (by simp [h]) ⟨.immediate (Int64.ofNat n.val), s.position⟩
  | .symbol (.operation .sub) =>
    s.skip (by simp [h]) fun r =>
      match hn : r.kind with
      | .integer n => r.token (by simp [hn]) ⟨.immediate (-Int64.ofNat n.val), s.position⟩
      | _ => .error ⟨.numberAfterMinus, s.position⟩
  | .vectorRegister _ => .error (s.error .vectorRegister)
  | .float _ => .error (s.error .floatImmediate)
  | _ => .error (s.error .operand)

/-- Reads a comparison operator. -/
def comparison (s : Stream) : Reads s Comparison :=
  match h : s.kind with
  | .symbol (.comparison c) => s.token (by simp [h]) c
  | _ => .error (s.error .comparison)

/-- Reads a comparison of two operands. -/
def condition (s : Stream) : Reads s Condition :=
  s.operand.andThen fun lhs s₁ =>
    s₁.comparison.andThen fun c s₂ =>
      s₂.operand.map fun rhs => ⟨lhs, c, rhs, s.position⟩

/-- Reads an optional guard and the semicolon that ends a statement. A missing semicolon is one fault behind a guard and
another one without. -/
def guardAndEnd (s : Stream) (behindGuard unguarded : ParseFault) : Reads s (Option Condition) :=
  if h : s.kind = .keyword .guard then
    s.skip (by simp [h]) fun s₁ =>
      s₁.condition.andThen fun guard s₂ =>
        (s₂.expect .semicolon behindGuard).map fun _ => some guard
  else (s.expect .semicolon unguarded).map fun _ => none

/-- Reads the end of an action that began at a position. -/
def finish (s : Stream) (start : Position) (action : Action) : Reads s Statement :=
  (s.guardAndEnd .semicolon .semicolon).map fun guard => .action action guard start

/-- Reads the rest of an update behind its operator. -/
def update (s : Stream) (start : Position) (dest : Register) (op : Operation) : Reads s Statement :=
  s.operand.andThen fun source s₁ =>
    (s₁.guardAndEnd .semicolonAfterCondition .semicolonOrCondition).map fun guard =>
      .action (.update dest op source) guard start

/-- Reads the rest of an assignment behind its operator. -/
def assign (s : Stream) (start : Position) (dest : Register) : Reads s Statement :=
  s.operand.andThen fun lhs s₁ =>
    match h : s₁.kind with
    | .symbol (.operation op) =>
      s₁.skip (by simp [h]) fun s₂ =>
        s₂.operand.andThen fun rhs s₃ => s₃.finish start (.compute dest op lhs rhs)
    | .symbol .semicolon => s₁.finish start (.assign dest lhs)
    | .keyword .guard => s₁.finish start (.assign dest lhs)
    | _ => .error (s₁.error .semicolonOrOperator)

/-- Reads the rest of a statement that begins with a register. -/
def toRegister (s : Stream) (start : Position) (dest : Register) : Reads s Statement :=
  match h : s.kind with
  | .symbol .assign => s.skip (by simp [h]) fun r => r.assign start dest
  | .symbol (.update op) => s.skip (by simp [h]) fun r => r.update start dest op
  | _ => .error (s.error .assignment)

/-- Reads what is printed. -/
def output (s : Stream) (start : Position) : Reads s Statement :=
  match h : s.kind with
  | .text text => s.skip (by simp [h]) fun r => r.finish start (.printText text)
  | _ => s.operand.andThen fun source r => r.finish start (.print source)

/-- Reads the register of a stack action. -/
def stack (s : Stream) (start : Position) (action : Register → Action) : Reads s Statement :=
  match h : s.kind with
  | .register reg => s.skip (by simp [h]) fun r => r.finish start (action reg)
  | _ => .error (s.error .register)

/-- Reads the optional condition and the opening brace of a loop. -/
def loopHead (s : Stream) : Reads s (Option Condition) :=
  if h : s.kind = .symbol .parenOpen then
    s.skip (by simp [h]) fun s₁ =>
      s₁.condition.andThen fun condition s₂ =>
        (s₂.expect .parenClose .loopConditionEnd).andThen fun _ s₃ =>
          (s₃.expect .braceOpen .loopBody).map fun _ => some condition
  else (s.expect .braceOpen .loopBody).map fun _ => none

/-- Reads the condition and the opening brace of a branch. -/
def branchHead (s : Stream) : Reads s Condition :=
  (s.expect .parenOpen .branchCondition).andThen fun _ s₁ =>
    s₁.condition.andThen fun condition s₂ =>
      (s₂.expect .parenClose .branchConditionEnd).andThen fun _ s₃ =>
        (s₃.expect .braceOpen .branchBody).map fun _ => condition

/-- How a statement begins: all of an action, or a loop or a branch up to the brace that opens its body. -/
inductive Head where
  | whole (statement : Statement)
  | loop (condition : Option Condition)
  | branch (condition : Condition)

/-- Reads the beginning of a statement. -/
def head (s : Stream) : Reads s Head :=
  let start := s.position
  match h : s.kind with
  | .register dest => s.skip (by simp [h]) fun r => (r.toRegister start dest).map .whole
  | .identifier procedure => s.skip (by simp [h]) fun r => (r.finish start (.call procedure)).map .whole
  | .symbol .output => s.skip (by simp [h]) fun r => (r.output start).map .whole
  | .keyword .breakLoop => s.skip (by simp [h]) fun r => (r.finish start .breakLoop).map .whole
  | .keyword .continueLoop => s.skip (by simp [h]) fun r => (r.finish start .continueLoop).map .whole
  | .keyword .returnCall => s.skip (by simp [h]) fun r => (r.finish start .returnCall).map .whole
  | .keyword .push => s.skip (by simp [h]) fun r => (r.stack start .push).map .whole
  | .keyword .pop => s.skip (by simp [h]) fun r => (r.stack start .pop).map .whole
  | .keyword .loop => s.skip (by simp [h]) fun r => r.loopHead.map .loop
  | .keyword .branch => s.skip (by simp [h]) fun r => r.branchHead.map .branch
  | _ => .error (s.error .statement)

/-- Reads the word that begins an else-body and its opening brace. -/
def elseHead (s : Stream) (h : s.kind = .keyword .otherwise) : Reads s Unit :=
  s.skip (by simp [h]) fun r => r.expect .braceOpen .elseBody

mutual

/-- Reads a statement. -/
def statement (s : Stream) : Reads s Statement :=
  match s.head with
  | .error e => .error e
  | .ok (.whole statement, r) => .ok (statement, r)
  | .ok (.loop condition, r) => r.reads ((body r.val).map fun body => .loop condition body none s.position)
  | .ok (.branch condition, r) =>
    r.reads <| match body r.val with
      | .error e => .error e
      | .ok (thenBody, r₁) =>
        if h : r₁.val.kind = .keyword .otherwise then
          r₁.reads <| match r₁.val.elseHead h with
            | .error e => .error e
            | .ok (_, r₂) =>
              r₂.reads ((body r₂.val).map fun elseBody => .branch condition thenBody elseBody none s.position)
        else .ok (.branch condition thenBody [] none s.position, r₁)
termination_by (s.size, 0)
decreasing_by
  · exact Prod.Lex.left _ _ r.property
  · exact Prod.Lex.left _ _ r.property
  · exact Prod.Lex.left _ _ (Nat.lt_trans r₂.property (Nat.lt_trans r₁.property r.property))

/-- Reads statements up to the brace that closes them. -/
def body (s : Stream) : Reads s (List Statement) :=
  if h : s.kind = .symbol .braceClose then s.token (by simp [h]) []
  else
    match statement s with
    | .error e => .error e
    | .ok (statement, r) => r.reads ((body r.val).map fun rest => statement :: rest)
termination_by (s.size, 1)
decreasing_by
  · exact Prod.Lex.right _ (by decide)
  · exact Prod.Lex.left _ _ r.property

end

/-- Reads a procedure behind its keyword. -/
def named (s : Stream) : Reads s Procedure :=
  match h : s.kind with
  | .identifier name =>
    s.skip (by simp [h]) fun s₁ =>
      (s₁.expect .braceOpen .procedureBody).andThen fun _ s₂ =>
        s₂.body.map fun body => ⟨name, body, s.position⟩
  | _ => .error (s.error .procedureName)

/-- Reads a procedure. -/
def procedure (s : Stream) : Reads s Procedure :=
  if h : s.kind = .keyword .procedure then s.skip (by simp [h]) fun r => r.named
  else .error (s.error .topLevel)

/-- Reads procedures into a table up to the end of the input. -/
def procedures (s : Stream) (table : ProcedureTable) : Except ParseError ProcedureTable :=
  if s.kind = .endOfInput then .ok table
  else
    match s.procedure with
    | .error e => .error e
    | .ok (p, r) =>
      match table.insert p with
      | .error duplicate => .error ⟨.redeclared duplicate.name, p.position⟩
      | .ok table => procedures r.val table
termination_by s.size
decreasing_by exact r.property

end Stream

/-- The program that a list of tokens writes, or the first error in it. -/
def parseTokens (tokens : List Token) : Except ParseError ProcedureTable :=
  (Stream.ofTokens tokens).procedures ProcedureTable.empty

end RegisterCompiler
