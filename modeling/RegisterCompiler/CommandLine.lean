import RegisterCompiler.Failure
import RegisterCompiler.Program.Printer

/-!
# The command line

What the program does with its arguments: it reads one file, shows what it was asked to show, and runs the program unless it
was asked not to. Everything that is shown before a failure stays shown.
-/

namespace RegisterCompiler

/-- Why a file cannot be read. -/
inductive ReadFault where
  | missing
  | denied
  /-- The path goes on below a file. -/
  | notDirectory
  | directory
  /-- The path, or a name in it, is too long. -/
  | nameTooLong
  /-- The path holds a zero character, which ends a path. -/
  | zeroInPath
  | notText
  deriving DecidableEq, Repr

/-- The text of a read fault. -/
def ReadFault.message : ReadFault → String
  | missing => "No such file or directory (os error 2)"
  | denied => "Permission denied (os error 13)"
  | notDirectory => "Not a directory (os error 20)"
  | directory => "Is a directory (os error 21)"
  | nameTooLong => "File name too long (os error 36)"
  | zeroInPath => "file name contained an unexpected NUL byte"
  | notText => "stream did not contain valid UTF-8"

/-- What the arguments ask for. -/
structure Options where
  file : String
  dumpTokens : Bool := false
  dumpProgram : Bool := false
  dumpCode : Bool := false
  onlyCompile : Bool := false
  deriving DecidableEq, Repr

/-- How a run of the command ends. -/
inductive Exit where
  | status (code : Nat)
  /-- The program that was run broke off. -/
  | fault (f : Machine.Fault)
  /-- The program that was run did not come to its end. -/
  | unfinished
  deriving DecidableEq, Repr

/-- What the command leaves: its output, its error text and its end. -/
structure CommandResult where
  output : List UInt8
  errors : String
  exit : Exit
  deriving DecidableEq, Repr

/-- How to call the command. -/
def usage : String := "Usage: [--dump-tokens] [--dump-ast] [--dump-code] [--no-exec] FILE\n"

/-- The options that arguments give, in any order; none if they do not fit. -/
def Options.ofArguments? (arguments : List String) : Option Options :=
  collect { file := "" } false arguments
where
  /-- The options so far, whether a file is among them, and the arguments left. -/
  collect (o : Options) (named : Bool) : List String → Option Options
    | [] => if named then some o else none
    | "--" :: rest =>
      match named, rest with
      | true, [] => some o
      | false, [file] => some { o with file := file }
      | _, _ => none
    | "--dump-tokens" :: rest => if o.dumpTokens then none else collect { o with dumpTokens := true } named rest
    | "--dump-ast" :: rest => if o.dumpProgram then none else collect { o with dumpProgram := true } named rest
    | "--dump-code" :: rest => if o.dumpCode then none else collect { o with dumpCode := true } named rest
    | "--no-exec" :: rest => if o.onlyCompile then none else collect { o with onlyCompile := true } named rest
    | file :: rest =>
      if named ∨ (file.startsWith "-" ∧ file ≠ "-") then none else collect { o with file := file } true rest

/-- The text that bytes are in UTF-8, if they are. -/
def textOfBytes? (bytes : List UInt8) : Option String :=
  if utf8Bytes (lossyText bytes) = bytes then some (lossyText bytes) else none

/-- A text where it is asked for. -/
def shown (wanted : Bool) (text : String) : List UInt8 := if wanted then utf8Bytes text else []

/-- Works through a source text; a run gets a number of steps. -/
def process (o : Options) (intrinsics : Intrinsics) (steps : Nat) (source : List UInt8) : CommandResult :=
  let failed (output : List UInt8) (f : Failure) : CommandResult := ⟨output, f.report.line o.file ++ "\n", .status 1⟩
  match tokenize source with
  | .error e => failed [] (.lex e)
  | .ok tokens =>
    let output := shown o.dumpTokens (dumpTokens o.file tokens)
    match parseTokens tokens with
    | .error e => failed output (.parse e)
    | .ok table =>
      let output := output ++ shown o.dumpProgram table.render
      match table.compile intrinsics with
      | .error e => failed output (.compile e)
      | .ok compiled =>
        let output := output ++ match compiled.dump with
          | .ok dump => shown o.dumpCode dump
          | .error _ => []
        if o.onlyCompile then ⟨output, "", .status 0⟩
        else
          match compiled.run steps with
          | .error e => failed output (.load e)
          | .ok run =>
            ⟨output ++ outputOf run.events, "", match run.ending with
              | .finished _ => .status 0
              | .fault f => .fault f
              | .unfinished => .unfinished⟩

/-- Carries out the command on files that are read by the given function. -/
def command (arguments : List String) (intrinsics : Intrinsics) (steps : Nat)
    (read : String → Except ReadFault (List UInt8)) : CommandResult :=
  match Options.ofArguments? arguments with
  | none => ⟨[], usage, .status 2⟩
  | some o =>
    let refused (fault : ReadFault) : CommandResult :=
      ⟨[], "Error reading file '" ++ o.file ++ "': " ++ fault.message ++ "\n", .status 1⟩
    match read o.file with
    | .error fault => refused fault
    | .ok bytes =>
      match textOfBytes? bytes with
      | none => refused .notText
      | some _ => process o intrinsics steps bytes

end RegisterCompiler
