import Mathlib
import RegisterCompiler.Program.Parser

/-!
# Forgetting positions

Tokens, programs and errors without the positions in them: `unplaced` puts the unknown position in the place of every other
one, and drops the texts of tokens. What is left of a stream of tokens is the kinds of its tokens
(`Stream.unplaced_ofTokens_congr`); what the parser asks a stream without positions is answered as by the stream itself, but for
the positions.
-/

namespace RegisterCompiler

/-- A result or an error, each changed by a function of its own. -/
def mapOutcome {ε ε' α β : Type} (f : α → β) (g : ε → ε') : Except ε α → Except ε' β
  | .ok a => .ok (f a)
  | .error e => .error (g e)

/-! ## Programs -/

/-- An operand without its position. -/
def Operand.unplaced (o : Operand) : Operand := { o with position := .unknown }

/-- A condition without positions. -/
def Condition.unplaced (c : Condition) : Condition := ⟨c.lhs.unplaced, c.comparison, c.rhs.unplaced, .unknown⟩

/-- An action without positions. -/
def Action.unplaced : Action → Action
  | assign dest source => assign dest source.unplaced
  | update dest op source => update dest op source.unplaced
  | compute dest op lhs rhs => compute dest op lhs.unplaced rhs.unplaced
  | breakLoop => breakLoop
  | continueLoop => continueLoop
  | returnCall => returnCall
  | call procedure => call procedure
  | print source => print source.unplaced
  | printText text => printText text
  | push r => push r
  | pop r => pop r

mutual

/-- A statement without positions. -/
def Statement.unplaced : Statement → Statement
  | .action a guard _ => .action a.unplaced (guard.map Condition.unplaced) .unknown
  | .loop condition statements guard _ =>
    .loop (condition.map Condition.unplaced) (unplacedBody statements) (guard.map Condition.unplaced) .unknown
  | .branch condition thenBody elseBody guard _ =>
    .branch condition.unplaced (unplacedBody thenBody) (unplacedBody elseBody) (guard.map Condition.unplaced) .unknown

/-- Statements without positions. -/
def unplacedBody : List Statement → List Statement
  | [] => []
  | s :: rest => s.unplaced :: unplacedBody rest

end

/-- A procedure without positions. -/
def Procedure.unplaced (p : Procedure) : Procedure := ⟨p.name, unplacedBody p.body, .unknown⟩

namespace ProcedureTable

variable (t : ProcedureTable)

/-- Procedures keep their names without positions. -/
theorem names_map_unplaced : (t.procedures.map Procedure.unplaced).map Procedure.name = t.names := by
  rw [List.map_map]
  rfl

/-- A table of procedures without positions. -/
def unplaced : ProcedureTable :=
  ⟨t.procedures.map Procedure.unplaced, by rw [names_map_unplaced]; exact t.names_nodup⟩

/-- A table holds the same names without positions. -/
theorem contains_unplaced (name : String) : t.unplaced.contains name = t.contains name := by
  have hnames : t.unplaced.names = t.names := t.names_map_unplaced
  rw [Bool.eq_iff_iff, ← not_iff_not, Bool.not_eq_true, Bool.not_eq_true, contains_eq_false_iff, contains_eq_false_iff, hnames]

/-- A table refuses a procedure for its name, wherever it stands. -/
theorem insert_unplaced (p : Procedure) :
    t.unplaced.insert p.unplaced = mapOutcome unplaced Procedure.unplaced (t.insert p) := by
  by_cases h : t.contains p.name = false
  · have h' : t.unplaced.contains p.unplaced.name = false := (t.contains_unplaced p.name).trans h
    rw [insert, insert, dif_pos h, dif_pos h']
    simp [mapOutcome, unplaced]
  · have h' : ¬ t.unplaced.contains p.unplaced.name = false := by
      rw [show p.unplaced.name = p.name from rfl, contains_unplaced]
      exact h
    rw [insert, insert, dif_neg h, dif_neg h']
    rfl

end ProcedureTable

/-! ## Streams of tokens -/

/-- A parse error without its position. -/
def ParseError.unplaced (e : ParseError) : ParseError := { e with position := .unknown }

/-- A token without its span and its text. -/
def Token.unplaced (t : Token) : Token := ⟨t.kind, .point .unknown, ""⟩

namespace Stream

variable (s : Stream)

/-- A stream of tokens without positions. -/
def unplaced : Stream := ⟨s.tokens.map Token.unplaced, .unknown⟩

/-- Of tokens only the kinds are left. -/
theorem unplaced_ofTokens_congr {a b : List Token} (h : a.map (·.kind) = b.map (·.kind)) :
    (ofTokens a).unplaced = (ofTokens b).unplaced := by
  have hkinds (tokens : List Token) : tokens.map Token.unplaced =
      (tokens.map (·.kind)).map fun kind => (⟨kind, .point .unknown, ""⟩ : Token) := by
    rw [List.map_map]
    rfl
  rw [unplaced, unplaced, ofTokens, ofTokens, hkinds a, hkinds b, h]

/-- A stream has as many tokens without positions. -/
@[simp] theorem size_unplaced : s.unplaced.size = s.size := List.length_map _

/-- A stream asks for the same kind without positions. -/
@[simp] theorem kind_unplaced : s.unplaced.kind = s.kind := by
  obtain ⟨_ | _, _⟩ := s <;> rfl

@[simp] theorem position_unplaced : s.unplaced.position = .unknown := by
  obtain ⟨_ | _, _⟩ := s <;> rfl

/-- Advancing drops the same token without positions. -/
@[simp] theorem advance_unplaced : s.unplaced.advance = s.advance.unplaced := by
  obtain ⟨_ | _, _⟩ := s <;> rfl

/-- The same fault is found without positions, but for where it is reported. -/
@[simp] theorem error_unplaced (fault : ParseFault) : s.unplaced.error fault = (s.error fault).unplaced := by
  rw [error, error, kind_unplaced, position_unplaced]
  cases s.kind <;> rfl

/-- How a statement begins, without positions. -/
def Head.unplaced : Head → Head
  | whole statement => whole statement.unplaced
  | loop condition => loop (condition.map Condition.unplaced)
  | branch condition => branch condition.unplaced

end Stream

end RegisterCompiler
