/-!
# Registers of the language

The fifteen general-purpose registers a program may name. The stack pointer is not among them.
-/

namespace RegisterCompiler

/-- A register a program may name. -/
inductive Register where
  | rax | rbx | rcx | rdx | rsi | rdi | rbp | r8 | r9 | r10 | r11 | r12 | r13 | r14 | r15
  deriving DecidableEq, Repr

namespace Register

/-- Every register, in the order of the language. -/
def all : List Register := [rax, rbx, rcx, rdx, rsi, rdi, rbp, r8, r9, r10, r11, r12, r13, r14, r15]

/-- The spelling of a register. -/
def name : Register → String
  | rax => "rax"
  | rbx => "rbx"
  | rcx => "rcx"
  | rdx => "rdx"
  | rsi => "rsi"
  | rdi => "rdi"
  | rbp => "rbp"
  | r8 => "r8"
  | r9 => "r9"
  | r10 => "r10"
  | r11 => "r11"
  | r12 => "r12"
  | r13 => "r13"
  | r14 => "r14"
  | r15 => "r15"

/-- The register with a spelling. -/
def ofName? (word : String) : Option Register := all.find? fun r => r.name == word

/-- The list has every register. -/
theorem mem_all (r : Register) : r ∈ all := by cases r <;> decide

end Register

end RegisterCompiler
