import Mathlib
import RegisterCompiler.X64.Sequence

/-!
# Words

64-bit words as unsigned and as signed numbers.
-/

namespace RegisterCompiler

/-- A word as a signed number is its unsigned value, taken around zero. -/
theorem toInt_toInt64 (w : UInt64) : w.toInt64.toInt = Int.bmod w.toNat (2 ^ 64) :=
  BitVec.toInt_eq_toNat_bmod w.toBitVec

theorem toInt_toInt64_of_lt {w : UInt64} (h : w.toNat < 2 ^ 63) : w.toInt64.toInt = w.toNat := by
  rw [toInt_toInt64, Int.bmod_def]
  omega

theorem toInt_toInt64_of_le {w : UInt64} (h : 2 ^ 63 ≤ w.toNat) : w.toInt64.toInt = w.toNat - 2 ^ 64 := by
  have hlt := w.toNat_lt
  rw [toInt_toInt64, Int.bmod_def]
  omega

/-- A number below 2^63 is itself as a signed word. -/
theorem toInt64_ofNat {n : Nat} (h : n < 2 ^ 63) : (UInt64.ofNat n).toInt64.toInt = n := by
  rw [toInt_toInt64, UInt64.toNat_ofNat', Int.bmod_def]
  omega

/-- A number from 2^63 on is, as a signed word, less than itself by at least 2^64. -/
theorem toInt64_ofNat_le {n : Nat} (h : 2 ^ 63 ≤ n) : (UInt64.ofNat n).toInt64.toInt ≤ (n : Int) - 2 ^ 64 := by
  rw [toInt_toInt64, UInt64.toNat_ofNat', Int.bmod_def]
  omega

/-- The shifts that take the bytes of a word to their places are within its width. -/
theorem byteShifts :
    ((8 : UInt64).toBitVec % 64).toNat = 8 ∧ ((16 : UInt64).toBitVec % 64).toNat = 16 ∧
      ((24 : UInt64).toBitVec % 64).toNat = 24 ∧ ((32 : UInt64).toBitVec % 64).toNat = 32 ∧
      ((40 : UInt64).toBitVec % 64).toNat = 40 ∧ ((48 : UInt64).toBitVec % 64).toNat = 48 ∧
      ((56 : UInt64).toBitVec % 64).toNat = 56 := by
  decide

namespace X64

theorem toInt_toInt32 {imm : Int64} (h : -2 ^ 31 ≤ imm.toInt ∧ imm.toInt < 2 ^ 31) : imm.toInt32.toInt = imm.toInt := by
  rw [Int64.toInt_toInt32]
  exact Int.bmod_eq_of_le (by omega) (by omega)

/-- A number fits an immediate exactly if it lies within 32 bits. -/
theorem fitsImmediate_iff (imm : Int64) : fitsImmediate imm = true ↔ -2 ^ 31 ≤ imm.toInt ∧ imm.toInt < 2 ^ 31 := by
  rw [fitsImmediate, beq_iff_eq, ← Int64.toInt_inj, Int32.toInt_toInt64]
  constructor
  · intro h
    have hmin := imm.toInt32.le_toInt
    have hmax := imm.toInt32.toInt_lt
    omega
  · exact toInt_toInt32

/-- A number fits eight bits exactly if it lies within them. -/
theorem fitsByte_iff (n : Int32) : fitsByte n = true ↔ -2 ^ 7 ≤ n.toInt ∧ n.toInt < 2 ^ 7 := by
  rw [fitsByte, beq_iff_eq, ← Int32.toInt_inj, Int8.toInt_toInt32, Int32.toInt_toInt8]
  constructor
  · intro h
    have hmin := n.toInt8.le_toInt
    have hmax := n.toInt8.toInt_lt
    rw [Int32.toInt_toInt8] at hmin hmax
    omega
  · rintro ⟨hmin, hmax⟩
    exact Int.bmod_eq_of_le (by omega) (by omega)

end X64

end RegisterCompiler
