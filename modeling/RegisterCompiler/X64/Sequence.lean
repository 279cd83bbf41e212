import RegisterCompiler.X64.Instruction

/-!
# Instruction sequences

Operations that no single instruction performs. A sequence may borrow registers: it keeps their contents in slots below the
stack pointer, which nothing touches as long as the sequence neither pushes nor calls, and puts them back at its end.
-/

namespace RegisterCompiler.X64

/-- A place below the stack pointer. The spill of a large immediate and the first register of a division share one, as no
sequence uses both. -/
inductive Slot where
  | spill | savedRax | savedRdx | savedRbx | result | divisor
  deriving DecidableEq, Repr

namespace Slot

/-- Every slot. -/
def all : List Slot := [spill, savedRax, savedRdx, savedRbx, result, divisor]

/-- The name of a slot. -/
def name : Slot → String
  | spill => "spill"
  | savedRax => "saved_rax"
  | savedRdx => "saved_rdx"
  | savedRbx => "saved_rbx"
  | result => "result"
  | divisor => "divisor"

/-- The number of eight-byte places the slots take up. -/
def depth : Nat := 5

/-- The place of a slot relative to the stack pointer, in eight bytes. -/
def index : Slot → Int
  | spill => -1
  | savedRax => -1
  | savedRdx => -2
  | savedRbx => -3
  | result => -4
  | divisor => -5

/-- The displacement of a slot from the stack pointer. -/
def displacement (s : Slot) : Int32 := Int32.ofInt (8 * s.index)

/-- Every slot lies in the part below the stack pointer that signal handlers leave alone. -/
theorem depth_le : 8 * depth ≤ 128 := by decide

end Slot

/-- A sequence of instructions. -/
abbrev Sequence := List Instruction

/-- Whether a number fits a signed 32-bit immediate. -/
def fitsImmediate (n : Int64) : Bool := n.toInt32.toInt64 == n

/-- Keeps a register in a slot. -/
def storeSlot (slot : Slot) (source : Reg) : Instruction := .store slot.displacement source

/-- Takes a register out of a slot. -/
def loadSlot (dest : Reg) (slot : Slot) : Instruction := .load dest slot.displacement

/-- The register that is borrowed for a large immediate beside another register. -/
def borrowedFor (dest : Reg) : Reg := if dest = .rax then .rbx else .rax

/-- An instruction on a large immediate, which is put into a borrowed register. -/
def withImmediate (dest : Reg) (imm : Int64) (use : Reg → Instruction) : Sequence :=
  let borrowed := borrowedFor dest
  [storeSlot .spill borrowed, .moveImmediate borrowed imm, use borrowed, loadSlot borrowed .spill]

/-- Combines a register with an immediate of any size. -/
def aluImmediate (op : Alu) (dest : Reg) (imm : Int64) : Sequence :=
  if fitsImmediate imm then [.aluImmediate op dest imm.toInt32]
  else withImmediate dest imm fun source => .alu op dest source

/-- Compares an immediate with a register. A compare takes its register first, so the operands are exchanged; the result tells
whether they are in all, where they may have been before. -/
def compareImmediate (imm : Int64) (reg : Reg) (exchanged : Bool) : Sequence × Bool := (aluImmediate .cmp reg imm, !exchanged)

/-- Multiplies a register by an immediate of any size. -/
def multiplyImmediate (dest : Reg) (imm : Int64) : Sequence :=
  if fitsImmediate imm then [.multiplyImmediate dest dest imm.toInt32]
  else withImmediate dest imm fun source => .multiply dest source

/-- What a division divides by. -/
inductive Divisor where
  | register (r : Reg)
  | immediate (n : Int64)
  deriving DecidableEq, Repr

/-- What a division leaves. -/
inductive DivisionPart where
  | quotient | remainder
  deriving DecidableEq, Repr

/-- The register in which the processor leaves a part of a division. -/
def DivisionPart.register : DivisionPart → Reg
  | quotient => .rax
  | remainder => .rdx

/-- Divides a register by a register or an immediate. The dividend and the divisor are fixed in slots before the registers of
the division are overwritten, so each of these may be either of them. -/
def divideBy (dest : Reg) (divisor : Divisor) (part : DivisionPart) : Sequence :=
  let keepDivisor : Sequence := match divisor with
    | .register source => [storeSlot .divisor source]
    | .immediate _ => []
  let fetchDivisor : Instruction := match divisor with
    | .register _ => loadSlot .rbx .divisor
    | .immediate imm => .moveImmediate .rbx imm
  [storeSlot .savedRax .rax, storeSlot .savedRdx .rdx, storeSlot .savedRbx .rbx, storeSlot .result dest] ++ keepDivisor ++
    [loadSlot .rax .result, fetchDivisor, .cqo, .divide .rbx, storeSlot .result part.register,
      loadSlot .rax .savedRax, loadSlot .rdx .savedRdx, loadSlot .rbx .savedRbx, loadSlot dest .result]

/-- Pushes every register but the stack pointer. -/
def pushAll : Sequence := Reg.saved.map .push

/-- Takes back what `pushAll` pushed. -/
def popAll : Sequence := Reg.saved.reverse.map .pop

end RegisterCompiler.X64
