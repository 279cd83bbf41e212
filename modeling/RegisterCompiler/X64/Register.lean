import RegisterCompiler.Program.Register

/-!
# Hardware registers

The sixteen general-purpose registers of the processor and their four-bit numbers. An encoding splits the number into its
high bit and its low three bits, and `Reg.ofParts` puts the two together again (`Reg.ofParts_parts`).
-/

namespace RegisterCompiler.X64

/-- A general-purpose register of the processor. -/
inductive Reg where
  | rax | rcx | rdx | rbx | rsp | rbp | rsi | rdi | r8 | r9 | r10 | r11 | r12 | r13 | r14 | r15
  deriving DecidableEq, Repr

namespace Reg

/-- Every register, by number. -/
def all : List Reg := [rax, rcx, rdx, rbx, rsp, rbp, rsi, rdi, r8, r9, r10, r11, r12, r13, r14, r15]

/-- The number of a register: its place among the sixteen. -/
def number (r : Reg) : Fin 16 := ⟨r.ctorIdx, by cases r <;> decide⟩

/-- The register with a number. -/
def ofNumber (n : Fin 16) : Reg := all.get (n.cast rfl)

/-- The low three bits of a register's number. -/
def low (r : Reg) : UInt8 := UInt8.ofNat (r.number.val % 8)

/-- Whether the high bit of a register's number is set. -/
def high (r : Reg) : Bool := 8 ≤ r.number.val

/-- The register of a high bit and three low bits; further bits are ignored. -/
def ofParts (high : Bool) (low : UInt8) : Reg :=
  ofNumber ⟨(if high then 8 else 0) + low.toNat % 8, by split <;> omega⟩

/-- The name of a register. -/
def name : Reg → String
  | rax => "rax"
  | rcx => "rcx"
  | rdx => "rdx"
  | rbx => "rbx"
  | rsp => "rsp"
  | rbp => "rbp"
  | rsi => "rsi"
  | rdi => "rdi"
  | r8 => "r8"
  | r9 => "r9"
  | r10 => "r10"
  | r11 => "r11"
  | r12 => "r12"
  | r13 => "r13"
  | r14 => "r14"
  | r15 => "r15"

/-- The register with a name. -/
def ofName? (name : String) : Option Reg := all.find? fun r => r.name == name

/-- The registers that are saved together, in the order they are pushed: all but the stack pointer. -/
def saved : List Reg := [rax, rbx, rcx, rdx, rsi, rdi, rbp, r8, r9, r10, r11, r12, r13, r14, r15]

/-- A register is the one with its number. -/
theorem ofNumber_number (r : Reg) : ofNumber r.number = r := by cases r <;> rfl

/-- A number is that of the register with it. -/
theorem number_ofNumber (n : Fin 16) : (ofNumber n).number = n := by revert n; decide

/-- A register is that of its high bit and its low three bits. -/
theorem ofParts_parts (r : Reg) : ofParts r.high r.low = r := by cases r <;> rfl

/-- All registers are saved but the stack pointer. -/
theorem mem_saved_iff (r : Reg) : r ∈ saved ↔ r ≠ rsp := by cases r <;> decide

end Reg

end RegisterCompiler.X64

namespace RegisterCompiler

/-- The hardware register that holds a register of the language. -/
def Register.hardware : Register → X64.Reg
  | rax => .rax
  | rbx => .rbx
  | rcx => .rcx
  | rdx => .rdx
  | rsi => .rsi
  | rdi => .rdi
  | rbp => .rbp
  | r8 => .r8
  | r9 => .r9
  | r10 => .r10
  | r11 => .r11
  | r12 => .r12
  | r13 => .r13
  | r14 => .r14
  | r15 => .r15

/-- No register of the language is the stack pointer. -/
theorem Register.hardware_ne_rsp (r : Register) : r.hardware ≠ .rsp := by cases r <;> decide

/-- Registers of the language lie in registers of their own. -/
theorem Register.hardware_injective : Function.Injective hardware := by
  intro a b h
  cases a <;> cases b <;> first | rfl | exact absurd h (by decide)

end RegisterCompiler
