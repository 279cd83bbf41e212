import RegisterCompiler.Machine.Run
import RegisterCompiler.Program.Parser

/-!
# Failures of the whole pipeline

From source text to machine code in one go, and what can go wrong on the way: reading tokens, reading the program, compiling
it, or loading the code. A failure is reported with its stage, its message and its position, if it has one.
-/

namespace RegisterCompiler

/-- A step from source text to a running program. -/
inductive Stage where
  | lexer | parser | compiler | loader
  deriving DecidableEq, Repr

/-- The name of a stage. -/
def Stage.name : Stage → String
  | lexer => "Lexer"
  | parser => "Parser"
  | compiler => "Compiler"
  | loader => "Loader"

/-- A failure as it is shown. -/
structure Report where
  stage : Stage
  message : String
  position : Option Position
  deriving DecidableEq, Repr

namespace Report

/-- The whole text of a report. -/
def text (r : Report) : String :=
  let rest := r.stage.name ++ " error: " ++ r.message
  match r.position with
  | some p => p.text ++ ": " ++ rest
  | none => rest

/-- The message and the position alone. -/
def inner (r : Report) : String :=
  match r.position with
  | some p => r.message ++ " at " ++ p.text
  | none => r.message

/-- The report on a file. -/
def line (r : Report) (file : String) : String :=
  match r.position with
  | some _ => file ++ ":" ++ r.text
  | none => file ++ ": " ++ r.text

end Report

/-- The first thing that went wrong. -/
inductive Failure where
  | lex (e : LexError)
  | parse (e : ParseError)
  | compile (e : CompileError)
  | load (e : LoadError)
  deriving DecidableEq, Repr

/-- The report of a failure. -/
def Failure.report : Failure → Report
  | lex e => ⟨.lexer, e.fault.message, some e.position⟩
  | parse e => ⟨.parser, e.fault.message, some e.position⟩
  | compile e => ⟨.compiler, e.fault.message, some e.position⟩
  | load e => ⟨.loader, e.message, none⟩

/-- The program that a source text writes. -/
def parseSource (source : List UInt8) : Except Failure ProcedureTable :=
  match tokenize source with
  | .error e => .error (.lex e)
  | .ok tokens => (parseTokens tokens).mapError .parse

/-- The machine code of a source text. -/
def compileSource (source : List UInt8) (intrinsics : Intrinsics) : Except Failure Compiled :=
  match parseSource source with
  | .error e => .error e
  | .ok table => (table.compile intrinsics).mapError .compile

end RegisterCompiler
