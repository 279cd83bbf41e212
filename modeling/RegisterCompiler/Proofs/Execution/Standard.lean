import Mathlib
import RegisterCompiler.Proofs.Execution.Carried

/-!
# The standard environment

The standard environment has its code, its stack and its exit in three stretches of the address space that do not overlap, as long as
there is no more code than fits below the stack: below its stack pointer there is room, wherever the code is put.
-/

namespace RegisterCompiler.Machine

/-- The number of bytes between the highest address at which code may begin and the stack. -/
def codeLimit : Nat := 0x7C00000000

/-- The number of bytes of the standard stack below its pointer. -/
def standardSpace : Nat := standardStackSize - 4096

section

variable {code : List UInt8} {intrinsics : Intrinsics}

/-- Code begins below the stack. -/
theorem standardEnvironment_base (code : List UInt8) (intrinsics : Intrinsics) :
    0x7F0000000000 ≤ (standardEnvironment code intrinsics).base.toNat ∧
      (standardEnvironment code intrinsics).base.toNat + codeLimit ≤ standardStackBase.toNat := by
  have hlt := (fingerprint code).toNat_lt
  simp only [standardEnvironment, codeLimit, standardStackBase, UInt64.toNat_add, UInt64.toNat_mul, UInt64.toNat_div,
    UInt64.reduceToNat]
  omega

/-- The exit lies below all code. -/
theorem standardEnvironment_exit (code : List UInt8) (intrinsics : Intrinsics) :
    (standardEnvironment code intrinsics).exit.toNat < 0x7F0000000000 := by
  have hlt := (fingerprint code).toNat_lt
  simp only [standardEnvironment, UInt64.toNat_add, UInt64.toNat_div, UInt64.reduceToNat]
  omega

/-- An address before the code, or behind it, is not in the code. -/
theorem Environment.codeOffset?_of_outside {env : Environment} {address : UInt64}
    (h : address.toNat < env.base.toNat ∨ env.base.toNat + env.image.bytes.size ≤ address.toNat)
    (hsize : env.base.toNat + env.image.bytes.size ≤ 2 ^ 64) : env.codeOffset? address = none := by
  have hbase := env.base.toNat_lt
  have haddress := address.toNat_lt
  have hout : ¬(address - env.base).toNat < env.image.bytes.size := by
    rw [UInt64.toNat_sub]
    omega
  unfold codeOffset?
  simp only [if_neg hout]

/-- The whole stack below its pointer can be written. -/
theorem writable_standardEnvironment (hsize : code.length ≤ codeLimit) :
    (standardEnvironment code intrinsics).Writable standardStackBase.toNat standardStackPointer.toNat := by
  obtain ⟨hlow, hhigh⟩ := standardEnvironment_base code intrinsics
  have hbytes : (standardEnvironment code intrinsics).image.bytes.size = code.length := rfl
  have hstackBase : standardStackBase.toNat = 0x7FFC00000000 := rfl
  have hpointer : standardStackPointer.toNat = standardStackBase.toNat + standardSpace := rfl
  have hspace : standardSpace = 0x7FF000 := rfl
  refine ⟨by omega, ?_⟩
  intro q hl hh
  have hq : (UInt64.ofNat q).toNat = q := UInt64.toNat_ofNat_of_lt' (show q < 2 ^ 64 by omega)
  refine ⟨Environment.codeOffset?_of_outside (.inr (by omega)) (by omega), ?_⟩
  unfold Environment.inStack
  rw [decide_eq_true_eq]
  show (UInt64.ofNat q - standardStackBase).toNat < standardStackSize
  have hstackSize : standardStackSize = 0x800000 := rfl
  rw [UInt64.toNat_sub]
  omega

/-- Below the pointer of the standard stack there is room. -/
theorem room_standardEnvironment {s : State} (hsize : code.length ≤ codeLimit) (hpointer : s.get .rsp = standardStackPointer)
    {depth : Nat} (hdepth : depth ≤ standardSpace) : (standardEnvironment code intrinsics).Room depth s := by
  rintro _ ⟨k, hk, hle, rfl⟩
  have hspace : standardStackPointer.toNat = standardStackBase.toNat + standardSpace := rfl
  have hlarge := standardStackPointer.toNat_lt
  have haddress : standardStackPointer - UInt64.ofNat k = UInt64.ofNat (standardStackPointer.toNat - k) := by
    rw [← UInt64.toNat_inj, UInt64.toNat_sub, UInt64.toNat_ofNat', UInt64.toNat_ofNat']
    omega
  rw [hpointer, haddress]
  exact (writable_standardEnvironment hsize).mapped _ (by omega) (by omega)

/-- The code of the standard environment stands in it from the beginning on. -/
theorem holds_standardEnvironment (hsize : code.length ≤ codeLimit) : (standardEnvironment code intrinsics).Holds 0 code := by
  have hlimit : codeLimit ≤ 2 ^ 64 := by decide
  exact ⟨(hsize.trans hlimit : code.toArray.size ≤ 2 ^ 64), List.prefix_refl _⟩

end

end RegisterCompiler.Machine
