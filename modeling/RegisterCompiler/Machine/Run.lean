import RegisterCompiler.Compiler.Compiled
import RegisterCompiler.Machine.Step

/-!
# Loading and running programs

Code is loaded whole pages at a time, at an address that it does not know, and entered at an offset inside it. A run takes steps
until it ends, faults, or has taken as many as it was given; it brings out what was printed and how it ended. More steps do not
change a run that ended.
-/

namespace RegisterCompiler

namespace Machine

/-- How a run comes to its end. -/
inductive Ending where
  | finished (s : State)
  | fault (f : Fault)
  /-- The steps it was given were too few. -/
  | unfinished

/-- What was printed, and the end. -/
structure Run where
  events : List Event
  ending : Ending

namespace Environment

/-- Takes up to a number of steps, after some events. -/
def runFrom (env : Environment) : Nat → Array Event → State → Run
  | 0, events, _ => ⟨events.toList, .unfinished⟩
  | n + 1, events, s =>
    match env.step s with
    | .error f => ⟨events.toList, .fault f⟩
    | .ok (.next s) => env.runFrom n events s
    | .ok (.print e s) => env.runFrom n (events.push e) s
    | .ok (.exit s) => ⟨events.toList, .finished s⟩

/-- Runs the code from an offset, called with the given registers and the stack pointer at the given address. -/
def run (env : Environment) (steps : Nat) (registers : Registers) (stackPointer : UInt64) (entry : Nat) : Run :=
  let s : State := ⟨registers.set .rsp stackPointer, env.undefinedFlags, Memory.zero, env.base + UInt64.ofNat entry⟩
  match env.pushWord s env.exit with
  | .error f => ⟨[], .fault f⟩
  | .ok s => env.runFrom steps #[] s

end Environment

/-- A number that hangs on every byte of a piece of code. -/
def fingerprint (code : List UInt8) : UInt64 := code.foldl (fun h b => (h ^^^ b.toUInt64) * 0x100000001B3) 0xCBF29CE484222325

/-- The lowest address of the stack. -/
def standardStackBase : UInt64 := 0x7FFC00000000

/-- The size of the stack, eight megabytes. -/
def standardStackSize : Nat := 0x800000

/-- The stack pointer at the call of the entry, a page below the top of the stack. -/
def standardStackPointer : UInt64 := standardStackBase + UInt64.ofNat standardStackSize - 4096

/-- The environment in which loaded code runs. The code begins on a page high in the address space, below the stack. Which page
that is, and which address ends the run, hangs on the code, so that a number in the code does not happen to be one of them. -/
def standardEnvironment (code : List UInt8) (intrinsics : Intrinsics) : Environment where
  image := Image.ofCode code
  base := 0x7F0000000000 + fingerprint code / 0x2000000000 * 4096
  stackBase := standardStackBase
  stackSize := standardStackSize
  exit := 0x550000000000 + fingerprint code / 0x1000000
  host := clearingHost intrinsics
  undefinedFlags := ⟨false, false, false, false, false⟩

end Machine

/-- The addresses of the host functions in the standard environment. -/
def standardIntrinsics : Intrinsics := ⟨0x20000000, 0x20001000⟩

/-- A number of steps that no run is long enough to take. -/
def stepLimit : Nat := 0x4000000000000000

/-- The size of a page of memory. -/
def pageSize : Nat := 4096

/-- The size of whole pages that hold a number of bytes, at least one page, in 64 bits. -/
def pageAlign (size : UInt64) : Except X64.Misuse UInt64 :=
  let rounded := (max size.toNat 1 + (pageSize - 1)) / pageSize * pageSize
  if rounded < UInt64.size then .ok (UInt64.ofNat rounded) else .error .sumOverflow

/-- Why code cannot be loaded or entered. -/
inductive LoadError where
  | mapFailed (size : Nat)
  | protectFailed (size : Nat)
  | entryOutOfBounds (entry length : Nat)
  deriving DecidableEq, Repr

/-- The text of a load error. -/
def LoadError.message : LoadError → String
  | mapFailed size => "could not map " ++ toString size ++ " bytes for code"
  | protectFailed size => "could not make " ++ toString size ++ " bytes of code executable"
  | entryOutOfBounds entry length =>
    "entry 0x" ++ hexOffset entry ++ " lies outside " ++ toString length ++ " bytes of code"

/-- Runs code from an offset inside it. -/
def runCode (steps : Nat) (code : List UInt8) (entry : Nat) (intrinsics : Intrinsics) : Except LoadError Machine.Run :=
  if entry < code.length then
    .ok ((Machine.standardEnvironment code intrinsics).run steps Machine.Registers.zero Machine.standardStackPointer entry)
  else .error (.entryOutOfBounds entry code.length)

/-- Runs a program. -/
def Compiled.run (steps : Nat) (c : Compiled) : Except LoadError Machine.Run :=
  runCode steps c.code.bytes c.entry c.intrinsics

end RegisterCompiler
