import RegisterCompiler.X64.ConditionCode
import RegisterCompiler.X64.Register

/-!
# Instructions

The instructions the compiler writes, as data, and their bytes. A jump, a call and an address computation hold their
displacement from the end of the instruction. Where an immediate or a displacement fits eight bits, the short form is the one
that is written.
-/

namespace RegisterCompiler.X64

/-- A two-operand operation that writes flags. -/
inductive Alu where
  | add | or | and | sub | xor | cmp
  deriving DecidableEq, Repr

namespace Alu

/-- Every operation. -/
def all : List Alu := [add, or, and, sub, xor, cmp]

/-- The name of an operation. -/
def mnemonic : Alu → String
  | add => "add"
  | or => "or"
  | and => "and"
  | sub => "sub"
  | xor => "xor"
  | cmp => "cmp"

/-- The opcode of the form with two registers. -/
def opcode : Alu → UInt8
  | add => 0x01
  | or => 0x09
  | and => 0x21
  | sub => 0x29
  | xor => 0x31
  | cmp => 0x39

/-- The opcode extension of the forms with an immediate. -/
def extension : Alu → UInt8
  | add => 0
  | or => 1
  | and => 4
  | sub => 5
  | xor => 6
  | cmp => 7

/-- The operation with an opcode. -/
def ofOpcode? (opcode : UInt8) : Option Alu := all.find? fun op => op.opcode == opcode

/-- The operation with an opcode extension. -/
def ofExtension? (extension : UInt8) : Option Alu := all.find? fun op => op.extension == extension

end Alu

/-- A processor instruction. Memory operands lie at a displacement from the stack pointer. -/
inductive Instruction where
  | nop
  | ret
  /-- Extends the sign of `rax` into `rdx`. -/
  | cqo
  | push (r : Reg)
  | pop (r : Reg)
  /-- Calls the address in a register. -/
  | callRegister (r : Reg)
  /-- Calls the code at a displacement. -/
  | call (displacement : Int32)
  | jump (displacement : Int32)
  | branch (condition : ConditionCode) (displacement : Int32)
  | move (dest source : Reg)
  | moveImmediate (dest : Reg) (imm : Int64)
  | store (displacement : Int32) (source : Reg)
  | load (dest : Reg) (displacement : Int32)
  /-- Sets a register to the address at a displacement. -/
  | address (dest : Reg) (displacement : Int32)
  | alu (op : Alu) (dest source : Reg)
  | aluImmediate (op : Alu) (dest : Reg) (imm : Int32)
  | multiply (dest source : Reg)
  | multiplyImmediate (dest source : Reg) (imm : Int32)
  /-- Divides `rdx` and `rax` together: quotient to `rax`, remainder to `rdx`. -/
  | divide (divisor : Reg)
  deriving DecidableEq, Repr

/-- The prefix byte that widens the operands and extends register numbers. -/
def rexByte (wide reg base : Bool) : UInt8 :=
  0x40 ||| (if wide then 0x08 else 0) ||| (if reg then 0x04 else 0) ||| (if base then 0x01 else 0)

/-- The prefix of an instruction on 64-bit operands. -/
def wideRex (reg base : Bool) : UInt8 := rexByte true reg base

/-- The prefix of an instruction that is wide anyway: none unless it extends a register number. -/
def shortRex (base : Bool) : List UInt8 := if base then [rexByte false false true] else []

/-- The byte that names an addressing mode and two registers. -/
def modRM (mode reg rm : UInt8) : UInt8 := (mode <<< 6) ||| (reg <<< 3) ||| rm

/-- The byte behind a mode that names the stack pointer as base, without an index. -/
def stackBase : UInt8 := 0x24

/-- The bytes of a 32-bit word, the lowest first. -/
def wordBytes (w : UInt32) : List UInt8 :=
  [w.toUInt8, (w >>> 8).toUInt8, (w >>> 16).toUInt8, (w >>> 24).toUInt8]

/-- The bytes of a 64-bit word, the lowest first. -/
def longBytes (w : UInt64) : List UInt8 :=
  [w.toUInt8, (w >>> 8).toUInt8, (w >>> 16).toUInt8, (w >>> 24).toUInt8, (w >>> 32).toUInt8, (w >>> 40).toUInt8,
    (w >>> 48).toUInt8, (w >>> 56).toUInt8]

/-- The bytes of a signed 32-bit number. -/
def int32Bytes (n : Int32) : List UInt8 := wordBytes n.toUInt32

/-- Whether a number fits eight bits with its sign. -/
def fitsByte (n : Int32) : Bool := n.toInt8.toInt32 == n

/-- The low eight bits of a number. -/
def lowByte (n : Int32) : UInt8 := n.toInt8.toUInt8

/-- The operand at a displacement from the stack pointer, beside a register. -/
def stackOperand (reg : Reg) (displacement : Int32) : List UInt8 :=
  if fitsByte displacement then [modRM 1 reg.low 4, stackBase, lowByte displacement]
  else modRM 2 reg.low 4 :: stackBase :: int32Bytes displacement

namespace Instruction

/-- The bytes of an instruction. -/
def encode : Instruction → List UInt8
  | nop => [0x90]
  | ret => [0xC3]
  | cqo => [wideRex false false, 0x99]
  | push r => shortRex r.high ++ [0x50 + r.low]
  | pop r => shortRex r.high ++ [0x58 + r.low]
  | callRegister r => shortRex r.high ++ [0xFF, modRM 3 2 r.low]
  | call displacement => 0xE8 :: int32Bytes displacement
  | jump displacement => 0xE9 :: int32Bytes displacement
  | branch condition displacement => 0x0F :: (0x80 ||| UInt8.ofNat condition.number.val) :: int32Bytes displacement
  | move dest source => [wideRex source.high dest.high, 0x89, modRM 3 source.low dest.low]
  | moveImmediate dest imm => wideRex false dest.high :: (0xB8 + dest.low) :: longBytes imm.toUInt64
  | store displacement source => wideRex source.high false :: 0x89 :: stackOperand source displacement
  | load dest displacement => wideRex dest.high false :: 0x8B :: stackOperand dest displacement
  | address dest displacement => wideRex dest.high false :: 0x8D :: modRM 0 dest.low 5 :: int32Bytes displacement
  | alu op dest source => [wideRex source.high dest.high, op.opcode, modRM 3 source.low dest.low]
  | aluImmediate op dest imm =>
    if fitsByte imm then [wideRex false dest.high, 0x83, modRM 3 op.extension dest.low, lowByte imm]
    else wideRex false dest.high :: 0x81 :: modRM 3 op.extension dest.low :: int32Bytes imm
  | multiply dest source => [wideRex dest.high source.high, 0x0F, 0xAF, modRM 3 dest.low source.low]
  | multiplyImmediate dest source imm =>
    if fitsByte imm then [wideRex dest.high source.high, 0x6B, modRM 3 dest.low source.low, lowByte imm]
    else wideRex dest.high source.high :: 0x69 :: modRM 3 dest.low source.low :: int32Bytes imm
  | divide divisor => [wideRex false divisor.high, 0xF7, modRM 3 7 divisor.low]

/-- The number of bytes of an instruction. -/
def size (i : Instruction) : Nat := i.encode.length

/-- An instruction has at least one byte. -/
theorem size_pos (i : Instruction) : 0 < i.size := by
  cases i <;> simp [size, encode] <;> split <;> simp

/-- The distance from the end of an instruction to the code it refers to, if it refers to any. -/
def displacement? : Instruction → Option Int32
  | call d => some d
  | jump d => some d
  | branch _ d => some d
  | address _ d => some d
  | _ => none

/-- A memory operand. -/
def stackText (displacement : Int32) : String :=
  let d := displacement.toInt
  if d = 0 then "[rsp]"
  else if d < 0 then "[rsp - " ++ toString (-d) ++ "]"
  else "[rsp + " ++ toString d ++ "]"

/-- The text of an instruction, given the name of the code it refers to. -/
def text (target : String) : Instruction → String
  | nop => "nop"
  | ret => "ret"
  | cqo => "cqo"
  | push r => "push " ++ r.name
  | pop r => "pop " ++ r.name
  | callRegister r => "call " ++ r.name
  | call _ => "call " ++ target
  | jump _ => "jmp " ++ target
  | branch condition _ => condition.mnemonic ++ " " ++ target
  | move dest source => "mov " ++ dest.name ++ ", " ++ source.name
  | moveImmediate dest imm => "mov " ++ dest.name ++ ", " ++ toString imm.toInt
  | store displacement source => "mov " ++ stackText displacement ++ ", " ++ source.name
  | load dest displacement => "mov " ++ dest.name ++ ", " ++ stackText displacement
  | address dest _ => "lea " ++ dest.name ++ ", [rip -> " ++ target ++ "]"
  | alu op dest source => op.mnemonic ++ " " ++ dest.name ++ ", " ++ source.name
  | aluImmediate op dest imm => op.mnemonic ++ " " ++ dest.name ++ ", " ++ toString imm.toInt
  | multiply dest source => "imul " ++ dest.name ++ ", " ++ source.name
  | multiplyImmediate dest source imm => "imul " ++ dest.name ++ ", " ++ source.name ++ ", " ++ toString imm.toInt
  | divide divisor => "idiv " ++ divisor.name

end Instruction

end RegisterCompiler.X64
