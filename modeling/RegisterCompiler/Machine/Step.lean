import RegisterCompiler.Machine.Arithmetic
import RegisterCompiler.Machine.Host
import RegisterCompiler.X64.Decoder

/-!
# The processor

One instruction at a time: `Environment.step` fetches the instruction at the instruction pointer and carries it out. Code lies at
a base address and can be read but not written, the stack can be read and written, and every other address faults. A call of a
host function is one step that prints; a return to the exit address ends the run. Only instructions in the form in which the
compiler writes them are carried out.
-/

namespace RegisterCompiler.Machine

open X64 (Instruction Reg)

/-- Why a run breaks off. -/
inductive Fault where
  /-- A division by zero, or one whose quotient does not fit. -/
  | divide
  /-- An access to, or a jump to, an address where there is nothing. -/
  | segmentation
  /-- Bytes that are no instruction of the compiler's. -/
  | illegal
  deriving DecidableEq, Repr

/-- The instruction that code begins with and its size, if it is in the form in which it is written. -/
def fetch? (code : List UInt8) : Option (Instruction × Nat) :=
  match X64.decode code with
  | .ok (i, size) => if code.take size = i.encode then some (i, size) else none
  | .error _ => none

/-- The instruction at every offset of a piece of code. -/
def fetchTable : List UInt8 → List (Option (Instruction × Nat))
  | [] => []
  | b :: rest => fetch? (b :: rest) :: fetchTable rest

/-- The table holds what is fetched at each offset of the code, and nothing behind its end. -/
theorem getElem?_fetchTable (code : List UInt8) (k : Nat) :
    (fetchTable code)[k]? = if k < code.length then some (fetch? (code.drop k)) else none := by
  induction code generalizing k with
  | nil => rfl
  | cons b rest ih =>
    cases k with
    | zero => simp [fetchTable]
    | succ k => simp [fetchTable, ih]

/-- Code as the processor sees it: its bytes, and the instruction at every offset. -/
structure Image where
  bytes : Array UInt8
  instructions : Array (Option (Instruction × Nat))
  instructions_eq : instructions = (fetchTable bytes.toList).toArray := by rfl

/-- The image of a piece of code. -/
def Image.ofCode (code : List UInt8) : Image := { bytes := code.toArray, instructions := (fetchTable code).toArray }

/-- What the processor runs in: code, a stack and a host. -/
structure Environment where
  image : Image
  /-- The address of the code. -/
  base : UInt64
  /-- The lowest address of the stack. -/
  stackBase : UInt64
  stackSize : Nat
  /-- The address that ends a run when it is returned to. -/
  exit : UInt64
  host : Host
  /-- The flags that an instruction leaves where it does not define them. -/
  undefinedFlags : Flags

/-- How a step goes on. -/
inductive Transition where
  | next (s : State)
  /-- Something was printed. -/
  | print (e : Event) (s : State)
  /-- The run has come to its end. -/
  | exit (s : State)

namespace Environment

/-- The offset of an address in the code, if it lies there. -/
def codeOffset? (env : Environment) (address : UInt64) : Option Nat :=
  let offset := (address - env.base).toNat
  if offset < env.image.bytes.size then some offset else none

/-- Whether an address lies in the stack. -/
def inStack (env : Environment) (address : UInt64) : Bool := (address - env.stackBase).toNat < env.stackSize

/-- The byte at an address of the code or the stack. -/
def load (env : Environment) (s : State) (address : UInt64) : Except Fault UInt8 :=
  match env.codeOffset? address with
  | some offset => .ok (env.image.bytes.getD offset 0)
  | none => if env.inStack address then .ok (s.memory.read address) else .error .segmentation

/-- Writes a byte into the stack. -/
def store (env : Environment) (s : State) (address : UInt64) (b : UInt8) : Except Fault State :=
  if (env.codeOffset? address).isNone ∧ env.inStack address then .ok { s with memory := s.memory.write address b }
  else .error .segmentation

/-- A number of bytes from an address on. -/
def loadBytes (env : Environment) (s : State) (address : UInt64) : Nat → Except Fault (List UInt8)
  | 0 => .ok []
  | n + 1 => do
    let b ← env.load s address
    return b :: (← env.loadBytes s (address + 1) n)

/-- Writes bytes from an address on. -/
def storeBytes (env : Environment) (s : State) (address : UInt64) : List UInt8 → Except Fault State
  | [] => .ok s
  | b :: rest => do env.storeBytes (← env.store s address b) (address + 1) rest

/-- The word that bytes make, the lowest first. -/
def wordOfBytes (bytes : List UInt8) : UInt64 := bytes.foldr (fun b w => (w <<< 8) ||| b.toUInt64) 0

/-- The word at an address. -/
def loadWord (env : Environment) (s : State) (address : UInt64) : Except Fault UInt64 :=
  return wordOfBytes (← env.loadBytes s address 8)

/-- Writes a word at an address. -/
def storeWord (env : Environment) (s : State) (address w : UInt64) : Except Fault State :=
  env.storeBytes s address (X64.longBytes w)

/-- Pushes a word. -/
def pushWord (env : Environment) (s : State) (w : UInt64) : Except Fault State := do
  let top := s.get .rsp - 8
  return (← env.storeWord s top w).set .rsp top

/-- Takes the top word off the stack. -/
def popWord (env : Environment) (s : State) : Except Fault (UInt64 × State) := do
  let top := s.get .rsp
  return (← env.loadWord s top, s.set .rsp (top + 8))

/-- The instruction at the instruction pointer and its size. -/
def fetch (env : Environment) (s : State) : Except Fault (Instruction × Nat) :=
  match env.codeOffset? s.pointer with
  | none => .error .segmentation
  | some offset =>
    match env.image.instructions.getD offset none with
    | none => .error .illegal
    | some fetched => .ok fetched

/-- A host function's return to the given address. The stack must be aligned at its call and have room for the address it
returns to. -/
def hostReturn (env : Environment) (s : State) (next : UInt64) : Except Fault State :=
  if s.get .rsp % 16 = 0 ∧ env.inStack (s.get .rsp - 8) then .ok { env.host.returned s with pointer := next }
  else .error .segmentation

/-- What the host prints when its function for texts is called. -/
def textArgument (env : Environment) (s : State) : Except Fault TextPointer :=
  if s.get .rdi = 0 then .ok (.null (s.get .rsi).toNat)
  else return .bytes (← env.loadBytes s (s.get .rdi) (s.get .rsi).toNat)

/-- Calls an address: a host function prints and returns in the same step. -/
def callAddress (env : Environment) (s : State) (function next : UInt64) : Except Fault Transition :=
  if function = env.host.intrinsics.printInteger then
    return .print (.integer (s.get .rdi).toInt64) (← env.hostReturn s next)
  else if function = env.host.intrinsics.printText then do
    let text ← env.textArgument s
    return .print text.event (← env.hostReturn s next)
  else return .next { ← env.pushWord s next with pointer := function }

/-- Carries out an instruction that ends at the given address. -/
def execute (env : Environment) (s : State) (next : UInt64) (i : Instruction) : Except Fault Transition :=
  let onward (s : State) : Transition := .next { s with pointer := next }
  match i with
  | .nop => .ok (onward s)
  | .ret => do
    let (target, s) ← env.popWord s
    return if target = env.exit then .exit s else .next { s with pointer := target }
  | .cqo => .ok (onward (s.set .rdx (signWord (s.get .rax))))
  | .push r => return onward (← env.pushWord s (s.get r))
  | .pop r => do
    let (w, s) ← env.popWord s
    return onward (s.set r w)
  | .callRegister r => env.callAddress s (s.get r) next
  | .call d => return .next { ← env.pushWord s next with pointer := next + wordOfInt32 d }
  | .jump d => .ok (.next { s with pointer := next + wordOfInt32 d })
  | .branch c d => .ok (.next { s with pointer := if holds c s.flags then next + wordOfInt32 d else next })
  | .move dest source => .ok (onward (s.set dest (s.get source)))
  | .moveImmediate dest imm => .ok (onward (s.set dest imm.toUInt64))
  | .store d source => return onward (← env.storeWord s (s.get .rsp + wordOfInt32 d) (s.get source))
  | .load dest d => return onward (s.set dest (← env.loadWord s (s.get .rsp + wordOfInt32 d)))
  | .address dest d => .ok (onward (s.set dest (next + wordOfInt32 d)))
  | .alu op dest source => .ok (onward (operate s op dest (s.get source)))
  | .aluImmediate op dest imm => .ok (onward (operate s op dest (wordOfInt32 imm)))
  | .multiply dest source => .ok (onward (multiply s dest (s.get dest) (s.get source)))
  | .multiplyImmediate dest source imm => .ok (onward (multiply s dest (s.get source) (wordOfInt32 imm)))
  | .divide divisor =>
    match divide? (s.get .rdx) (s.get .rax) (s.get divisor) with
    | none => .error .divide
    | some (quotient, remainder) =>
      .ok (onward { (s.set .rax quotient).set .rdx remainder with flags := env.undefinedFlags })
where
  /-- An operation on a register and a word; a compare sets only flags. -/
  operate (s : State) (op : X64.Alu) (dest : Reg) (w : UInt64) : State :=
    let flagged := { s with flags := aluFlags op (s.get dest) w }
    if op = .cmp then flagged else flagged.set dest (aluResult op (s.get dest) w)
  /-- A product of two words, whose flags tell whether it fits. -/
  multiply (s : State) (dest : Reg) (a b : UInt64) : State :=
    let lost := signed a * signed b != signed (a * b)
    { s.set dest (a * b) with flags := { env.undefinedFlags with carry := lost, overflow := lost } }

/-- Fetches an instruction and carries it out. -/
def step (env : Environment) (s : State) : Except Fault Transition := do
  let (i, size) ← env.fetch s
  env.execute s (s.pointer + UInt64.ofNat size) i

end Environment

end RegisterCompiler.Machine
