import RegisterCompiler.X64.Instruction

/-!
# Decoded instructions

The instruction at the start of a stretch of code and the number of its bytes, or why there is none. Bytes are read in order,
and the first one that is missing or does not fit decides the fault. More encodings are accepted than are ever written: a
missing width byte, the long form of a small number and the second form of a register move all decode to the instruction they
show.
-/

namespace RegisterCompiler.X64

/-- Why code does not begin with an instruction. -/
inductive DecodeFault where
  /-- The code ends behind the given number of bytes, where more were needed. -/
  | endOfCode (taken : Nat)
  | unsupportedOpcode (opcode : UInt8)
  | unsupportedAddressing
  deriving DecidableEq, Repr

/-- Code to be read, and the number of bytes read before. -/
structure Feed where
  rest : List UInt8
  taken : Nat
  deriving DecidableEq, Repr

/-- A reading of code. -/
abbrev Decode := StateT Feed (Except DecodeFault)

namespace Decode

/-- Reads a byte. -/
def byte : Decode UInt8 := fun f =>
  match f.rest with
  | b :: rest => .ok (b, ⟨rest, f.taken + 1⟩)
  | [] => .error (.endOfCode f.taken)

/-- Reads a 32-bit word, the lowest byte first. -/
def word : Decode UInt32 := fun f =>
  match f.rest with
  | a :: b :: c :: d :: rest =>
    .ok (a.toUInt32 ||| b.toUInt32 <<< 8 ||| c.toUInt32 <<< 16 ||| d.toUInt32 <<< 24, ⟨rest, f.taken + 4⟩)
  | _ => .error (.endOfCode f.taken)

/-- Reads a 64-bit word, the lowest byte first. -/
def long : Decode UInt64 := fun f =>
  match f.rest with
  | a :: b :: c :: d :: e :: g :: h :: i :: rest =>
    .ok (a.toUInt64 ||| b.toUInt64 <<< 8 ||| c.toUInt64 <<< 16 ||| d.toUInt64 <<< 24 ||| e.toUInt64 <<< 32 |||
      g.toUInt64 <<< 40 ||| h.toUInt64 <<< 48 ||| i.toUInt64 <<< 56, ⟨rest, f.taken + 8⟩)
  | _ => .error (.endOfCode f.taken)

/-- Reads a signed 32-bit number. -/
def int32 : Decode Int32 := return (← word).toInt32

/-- Reads a signed byte as a 32-bit number. -/
def int8 : Decode Int32 := return (← byte).toInt8.toInt32

end Decode

/-- What an instruction's first byte says about widths and register numbers. -/
structure Rex where
  wide : Bool
  reg : Bool
  base : Bool
  deriving DecidableEq, Repr

/-- No such byte: nothing is widened or extended. -/
def Rex.none : Rex := ⟨false, false, false⟩

/-- Whether a byte widens or extends. -/
def isRex (b : UInt8) : Bool := b &&& 0xF0 == 0x40

/-- What a widening or extending byte says. -/
def Rex.ofByte (b : UInt8) : Rex := ⟨b &&& 0x08 != 0, b &&& 0x04 != 0, b &&& 0x01 != 0⟩

/-- An addressing byte: its mode, and the low bits of two registers. -/
structure Operands where
  mode : UInt8
  reg : UInt8
  rm : UInt8
  deriving DecidableEq, Repr

/-- The parts of an addressing byte. -/
def Operands.ofByte (b : UInt8) : Operands := ⟨b >>> 6, (b >>> 3) &&& 7, b &&& 7⟩

namespace Decode

/-- Reads an addressing byte. -/
def operands : Decode Operands := return Operands.ofByte (← byte)

/-- Reads an addressing byte that names two registers. -/
def twoRegisters (rex : Rex) : Decode (Reg × Reg) := do
  let o ← operands
  if o.mode = 3 then return (Reg.ofParts rex.reg o.reg, Reg.ofParts rex.base o.rm)
  else throw .unsupportedAddressing

/-- Reads an addressing byte that extends the opcode by a number and names one register. -/
def extended (rex : Rex) : Decode (UInt8 × Reg) := do
  let o ← operands
  if o.mode = 3 then return (o.reg, Reg.ofParts rex.base o.rm)
  else throw .unsupportedAddressing

/-- Reads the rest of a memory operand: the displacement from the stack pointer. -/
def stackOperand (o : Operands) : Decode Int32 := do
  if o.rm = 4 ∧ (o.mode = 1 ∨ o.mode = 2) then
    let base ← byte
    if base = stackBase then
      if o.mode = 1 then int8 else int32
    else throw .unsupportedAddressing
  else throw .unsupportedAddressing

/-- A move between a register and another one or the stack; the flag tells whether the register is the target. -/
def move (rex : Rex) (toRegister : Bool) : Decode Instruction := do
  let o ← operands
  let reg := Reg.ofParts rex.reg o.reg
  if o.mode = 3 then
    let other := Reg.ofParts rex.base o.rm
    return if toRegister then .move reg other else .move other reg
  else
    let displacement ← stackOperand o
    return if toRegister then .load reg displacement else .store displacement reg

/-- A move of an immediate, wide or with its sign extended. -/
def moveImmediate (rex : Rex) (dest : Reg) : Decode Instruction := do
  if rex.wide then return .moveImmediate dest (← long).toInt64
  else return .moveImmediate dest (← int32).toInt64

/-- An address at a displacement from the end of the instruction. -/
def address (rex : Rex) : Decode Instruction := do
  let o ← operands
  if o.mode = 0 ∧ o.rm = 5 then return .address (Reg.ofParts rex.reg o.reg) (← int32)
  else throw .unsupportedAddressing

/-- An operation with an immediate of the given form. -/
def aluImmediate (rex : Rex) (immediate : Decode Int32) : Decode Instruction := do
  let (extension, reg) ← extended rex
  match Alu.ofExtension? extension with
  | none => throw .unsupportedAddressing
  | some op => return .aluImmediate op reg (← immediate)

/-- A multiplication by an immediate of the given form. -/
def multiplyImmediate (rex : Rex) (immediate : Decode Int32) : Decode Instruction := do
  let (dest, source) ← twoRegisters rex
  return .multiplyImmediate dest source (← immediate)

/-- An instruction on one register, if the opcode is extended by the given number. -/
def oneRegister (rex : Rex) (number : UInt8) (instruction : Reg → Instruction) : Decode Instruction := do
  let (extension, reg) ← extended rex
  if extension = number then return instruction reg else throw .unsupportedAddressing

/-- The instructions with a second opcode byte. -/
def second (rex : Rex) : Decode Instruction := do
  let opcode ← byte
  if opcode &&& 0xF0 = 0x80 then
    return .branch (ConditionCode.ofNumber ⟨opcode.toNat % 16, by omega⟩) (← int32)
  else if opcode = 0xAF then
    let (dest, source) ← twoRegisters rex
    return .multiply dest source
  else throw (.unsupportedOpcode opcode)

/-- An operation on two registers. -/
def alu (rex : Rex) (opcode : UInt8) : Decode Instruction :=
  match Alu.ofOpcode? opcode with
  | none => throw (.unsupportedOpcode opcode)
  | some op => do
    let (source, dest) ← twoRegisters rex
    return .alu op dest source

/-- The instruction of an opcode. -/
def opcode (rex : Rex) (opcode : UInt8) : Decode Instruction :=
  if opcode = 0x90 then pure .nop
  else if opcode = 0x99 ∧ rex.wide then pure .cqo
  else if opcode = 0xC3 then pure .ret
  else if opcode &&& 0xF8 = 0x50 then pure (.push (Reg.ofParts rex.base (opcode &&& 7)))
  else if opcode &&& 0xF8 = 0x58 then pure (.pop (Reg.ofParts rex.base (opcode &&& 7)))
  else if opcode &&& 0xF8 = 0xB8 then moveImmediate rex (Reg.ofParts rex.base (opcode &&& 7))
  else if opcode = 0x89 then move rex false
  else if opcode = 0x8B then move rex true
  else if opcode = 0x8D then address rex
  else if opcode = 0x81 then aluImmediate rex int32
  else if opcode = 0x83 then aluImmediate rex int8
  else if opcode = 0x69 then multiplyImmediate rex int32
  else if opcode = 0x6B then multiplyImmediate rex int8
  else if opcode = 0xF7 then oneRegister rex 7 .divide
  else if opcode = 0xFF then oneRegister rex 2 .callRegister
  else if opcode = 0xE8 then return .call (← int32)
  else if opcode = 0xE9 then return .jump (← int32)
  else if opcode = 0x0F then second rex
  else alu rex opcode

/-- An instruction. -/
def instruction : Decode Instruction := do
  let first ← byte
  if isRex first then opcode (Rex.ofByte first) (← byte) else opcode Rex.none first

end Decode

/-- The instruction that code begins with, and the number of its bytes. -/
def decode (code : List UInt8) : Except DecodeFault (Instruction × Nat) :=
  (Decode.instruction.run ⟨code, 0⟩).map fun (i, f) => (i, f.taken)

end RegisterCompiler.X64
