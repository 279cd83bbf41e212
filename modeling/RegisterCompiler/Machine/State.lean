import Std.Data.HashMap
import RegisterCompiler.X64.Register

/-!
# Machine states

What the processor holds: sixteen registers, five flags, the instruction pointer and memory. Memory is a map of bytes by
address, seen through `Memory.read`; a write changes the byte at its address and no other (`Memory.read_write`). Registers are
seen through `Registers.get` in the same way (`Registers.get_set`).
-/

namespace RegisterCompiler.Machine

open X64 (Reg)

/-- The contents of the sixteen registers, by number. -/
structure Registers where
  cells : Vector UInt64 16
  deriving DecidableEq, Repr

namespace Registers

/-- All registers zero. -/
def zero : Registers := ⟨Vector.replicate 16 0⟩

/-- The contents of a register. -/
def get (rs : Registers) (r : Reg) : UInt64 := rs.cells[r.number]

/-- The registers with one changed. -/
def set (rs : Registers) (r : Reg) (w : UInt64) : Registers := ⟨rs.cells.set r.number.val w r.number.isLt⟩

/-- A register that is set holds the word, and the others hold what they held. -/
theorem get_set (rs : Registers) (r q : Reg) (w : UInt64) : (rs.set r w).get q = if r = q then w else rs.get q := by
  have h : r.number.val = q.number.val ↔ r = q := by
    constructor
    · intro h
      rw [← Reg.ofNumber_number r, ← Reg.ofNumber_number q, Fin.eq_of_val_eq h]
    · rintro rfl
      rfl
  simp only [get, set, Fin.getElem_fin, Vector.getElem_set, h]

end Registers

/-- The flags of the processor. -/
structure Flags where
  carry : Bool
  parity : Bool
  zero : Bool
  sign : Bool
  overflow : Bool
  deriving DecidableEq, Repr

/-- Bytes by address. -/
structure Memory where
  cells : Std.HashMap UInt64 UInt8

namespace Memory

/-- Memory that holds only zeros. -/
def zero : Memory := ⟨{}⟩

/-- The byte at an address. -/
def read (m : Memory) (address : UInt64) : UInt8 := m.cells.getD address 0

/-- Memory with one byte changed. -/
def write (m : Memory) (address : UInt64) (b : UInt8) : Memory := ⟨m.cells.insert address b⟩

/-- A byte that is written is read back, and the others are read as before. -/
theorem read_write (m : Memory) (a c : UInt64) (b : UInt8) : (m.write a b).read c = if a = c then b else m.read c := by
  simp only [read, write, Std.HashMap.getD_insert, beq_iff_eq]

end Memory

/-- What the processor holds. -/
structure State where
  registers : Registers
  flags : Flags
  memory : Memory
  /-- The address of the next instruction. -/
  pointer : UInt64

namespace State

/-- The contents of a register. -/
def get (s : State) (r : Reg) : UInt64 := s.registers.get r

/-- The state with a register changed. -/
def set (s : State) (r : Reg) (w : UInt64) : State := { s with registers := s.registers.set r w }

end State

end RegisterCompiler.Machine
