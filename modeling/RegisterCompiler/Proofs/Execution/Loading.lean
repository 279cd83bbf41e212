import RegisterCompiler.Proofs.Execution.Simulation
import RegisterCompiler.Proofs.Execution.Standard

/-!
# Environments for programs

What an environment must be to run a program: its code in its place, its host, and room on the stack. The standard environment
carries every program that is not larger than the space below its stack, wherever the code is put.
-/

namespace RegisterCompiler

namespace Machine

open X64 (Reg)

/-- The number of bytes of the stack that a program needs beside what its procedures push: for the exit, the registers that are
saved, the return address of the main procedure and the code of a statement. -/
def entryReserve : Nat := 8 + 8 * Reg.saved.length + 8 + reserve

/-- An environment is one for a program: it holds its code and host, and below the stack pointer the stack has room for a number of
words. -/
structure Environment.Carries (env : Environment) (c : Compiled) (stackPointer : UInt64) (room : Nat) : Prop where
  image : env.image = Image.ofCode c.code.bytes
  intrinsics : env.host.intrinsics = c.intrinsics
  proper : env.Proper
  enough : entryReserve + 8 * room ≤ stackPointer.toNat
  writable : env.Writable (stackPointer.toNat - (entryReserve + 8 * room)) stackPointer.toNat

/-- The standard environment carries every program that is not larger than the space for it. -/
theorem carries_standardEnvironment {c : Compiled} {room : Nat} (hsize : c.code.bytes.length ≤ codeLimit)
    (hdistinct : c.intrinsics.printInteger ≠ c.intrinsics.printText) (hroom : entryReserve + 8 * room ≤ standardSpace) :
    (standardEnvironment c.code.bytes c.intrinsics).Carries c standardStackPointer room := by
  obtain ⟨hlow, hhigh⟩ := standardEnvironment_base c.code.bytes c.intrinsics
  have hexit := standardEnvironment_exit c.code.bytes c.intrinsics
  have hbytes : (standardEnvironment c.code.bytes c.intrinsics).image.bytes.size = c.code.bytes.length := rfl
  have hstackBase : standardStackBase.toNat = 0x7FFC00000000 := rfl
  have hpointer : standardStackPointer.toNat = standardStackBase.toNat + standardSpace := rfl
  have hspace : standardSpace = 0x7FF000 := rfl
  refine ⟨rfl, rfl, ⟨by omega, Environment.codeOffset?_of_outside (.inl (by omega)) (by omega), hdistinct⟩, by omega, ?_⟩
  exact (writable_standardEnvironment hsize).mono (by omega) (Nat.le_refl _)

end Machine

end RegisterCompiler
