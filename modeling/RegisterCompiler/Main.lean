import RegisterCompiler.CommandLine

/-!
# The program

Reads the file that the arguments name, carries out the command and writes what it leaves.
-/

namespace RegisterCompiler

/-- The exit code of a command; a fault gives that of the signal it stands for. -/
def Exit.code : Exit → UInt32
  | status code => UInt32.ofNat code
  | fault .divide => 136
  | fault .segmentation => 139
  | fault .illegal => 132
  | unfinished => 1

/-- The read fault that a failure to read a file stands for. -/
def ReadFault.ofFailure : IO.Error → ReadFault
  | .inappropriateType _ 21 _ => .directory
  | .inappropriateType .. => .notDirectory
  | .invalidArgument _ 22 _ => .zeroInPath
  | .invalidArgument .. => .nameTooLong
  | .permissionDenied .. => .denied
  | _ => .missing

/-- Reads a file. -/
def readFile (file : String) : IO (Except ReadFault (List UInt8)) := do
  try
    return .ok (← IO.FS.readBinFile file).toList
  catch e => return .error (.ofFailure e)

end RegisterCompiler

/-- Carries out the command. -/
def main (arguments : List String) : IO UInt32 := do
  let file := (RegisterCompiler.Options.ofArguments? arguments).map (·.file)
  let content ← RegisterCompiler.readFile (file.getD "")
  let result := RegisterCompiler.command arguments RegisterCompiler.standardIntrinsics RegisterCompiler.stepLimit fun _ => content
  (← IO.getStdout).write ⟨result.output.toArray⟩
  (← IO.getStderr).putStr result.errors
  return result.exit.code
