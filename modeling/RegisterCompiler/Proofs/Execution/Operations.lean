import RegisterCompiler.Proofs.Execution.Division
import RegisterCompiler.Proofs.Execution.Meaning
import RegisterCompiler.Proofs.Faults
import RegisterCompiler.Proofs.Word

/-!
# Operations and conditions

The code of an update computes what the operation means, and faults exactly where the operation has no result. Behind the code of a
compare the flags tell whether the condition is true.
-/

namespace RegisterCompiler.Machine

open X64 (DivisionPart Reg)

/-! ## Updates -/

/-- A word as a signed number is its unsigned value, less 2^64 in the upper half. -/
theorem signed_cases (w : UInt64) : signed w = w.toNat ∧ 0 ≤ signed w ∨ signed w = (w.toNat : Int) - 2 ^ 64 ∧ signed w < 0 := by
  have hword : signed w = Int.bmod w.toNat (2 ^ 64) := toInt_toInt64 w
  have hlt : w.toNat < 2 ^ 64 := w.toNat_lt
  rw [hword, Int.bmod_def]
  split_ifs <;> omega

/-- A word and the word of its signs are the word's number. -/
theorem signed_signWord (w : UInt64) : signed (signWord w) * UInt64.size + w.toNat = signed w := by
  have hall : signed 0xFFFFFFFFFFFFFFFF = -1 := by decide
  have hzero : signed 0 = 0 := by decide
  have hsize : (UInt64.size : Int) = 2 ^ 64 := rfl
  unfold signWord
  rcases signed_cases w with ⟨hw, hsign⟩ | ⟨hw, hsign⟩
  · rw [if_neg (by omega), hzero, hw]
    omega
  · rw [if_pos hsign, hall, hsize, hw]
    omega

/-- A quotient that fits a word is that of the numbers, rounded toward zero. -/
theorem toInt_div {a d : Int64} (h : ¬(a = Int64.minValue ∧ d = -1)) : (a / d).toInt = a.toInt.tdiv d.toInt := by
  by_cases ha : a = Int64.minValue
  · exact Int64.toInt_div_of_ne_right _ _ fun hd => h ⟨ha, hd⟩
  · exact Int64.toInt_div_of_ne_left _ _ ha

/-- The processor divides a word that is extended by its sign as numbers are divided. -/
theorem divide?_signWord (a d : UInt64) :
    divide? (signWord a) a d =
      if divisionFails a.toInt64 d.toInt64 then none
      else some ((a.toInt64 / d.toInt64).toUInt64, (a.toInt64 % d.toInt64).toUInt64) := by
  have hmin : Int64.minValue.toInt = -2 ^ 63 := by decide
  have hmax : Int64.maxValue.toInt = 2 ^ 63 - 1 := by decide
  have hzero : signed d = 0 ↔ d.toInt64 = 0 := Int64.toInt_inj (x := d.toInt64) (y := 0)
  unfold divide?
  simp only [signed_signWord]
  unfold divisionFails
  by_cases hd : d.toInt64 = 0
  · rw [if_pos (Or.inl (hzero.2 hd)), if_pos (by simp [hd])]
  · by_cases hoverflow : a.toInt64 = Int64.minValue ∧ d.toInt64 = -1
    · have ha : signed a = -2 ^ 63 := (congrArg Int64.toInt hoverflow.1).trans hmin
      have hd : signed d = -1 := congrArg Int64.toInt hoverflow.2
      rw [if_pos (by rw [ha, hd, hmax]; decide), if_pos (by simp [hoverflow])]
    · have hquotient : (signed a).tdiv (signed d) = (a.toInt64 / d.toInt64).toInt := (toInt_div hoverflow).symm
      have hremainder : (signed a).tmod (signed d) = (a.toInt64 % d.toInt64).toInt := (Int64.toInt_mod _ _).symm
      have hlow := Int64.minValue_le_toInt (a.toInt64 / d.toInt64)
      have hhigh := Int64.toInt_le (a.toInt64 / d.toInt64)
      rw [hquotient, hremainder, Int64.ofInt_toInt, Int64.ofInt_toInt, if_neg, if_neg]
      · simp [hd, hoverflow]
      · rintro (h | h | h)
        · exact hd (hzero.1 h)
        · omega
        · omega

section

variable {env : Environment} {p : Nat} {s : State} {dest : Reg}

/-- An update of a register stays within forty bytes below the stack pointer. -/
theorem contained_updateRegister (hdest : dest ≠ .rsp) (op : Operation) (value : Value) :
    ∀ i ∈ updateRegister dest op value, Contained 40 i := by
  have hvalue : valueDepth value ≤ 40 := (valueDepth_le value).trans (by decide)
  have hcombine (alu : X64.Alu) : ∀ i ∈ combine alu dest value, Contained 40 i :=
    fun i hi => (contained_combine hdest alu value i hi).mono hvalue
  cases op with
  | mul => exact fun i hi => (contained_multiplyBy hdest value i hi).mono hvalue
  | div => exact contained_divideBy hdest value .quotient
  | mod => exact contained_divideBy hdest value .remainder
  | _ => exact hcombine _

/-- An update sets its register to the result of the operation. -/
theorem performs_updateRegister (h : env.Ready p s) (hdest : dest ≠ .rsp) (op : Operation) (value : Value) {v : Int64}
    (hv : op.result? (s.get dest).toInt64 (valueWord s value).toInt64 = some v) :
    ∃ t, Performs env (updateRegister dest op value) s t ∧ Assigns dest v.toUInt64 s t := by
  have hroom : env.RoomAt (valueDepth value) p s := h.roomAt ((valueDepth_le value).trans (by decide))
  have hcombine (alu : X64.Alu) : ∃ t, Performs env (combine alu dest value) s t ∧
      Sets dest (aluLeaves alu (s.get dest) (valueWord s value)) s t := by
    obtain ⟨t, ht, hsets, -⟩ := performs_combine hroom hdest alu
    exact ⟨t, ht, hsets⟩
  have hdivision : ∀ part, divisionFails (s.get dest).toInt64 (valueWord s value).toInt64 = false →
      ∃ t, Performs env (X64.divideBy dest value.divisor part) s t ∧
        Sets dest (partOf part ((s.get dest).toInt64 / (valueWord s value).toInt64).toUInt64
          ((s.get dest).toInt64 % (valueWord s value).toInt64).toUInt64) s t := by
    intro part hfails
    refine performs_divideBy (h.roomAt (by decide)) hdest value part ?_
    rw [divide?_signWord, hfails]
    rfl
  -- each operation by its own code; what else it leaves alone is known from the instructions
  have hsets : ∃ t, Performs env (updateRegister dest op value) s t ∧ Sets dest v.toUInt64 s t := by
    cases op with
    | add =>
      obtain rfl := Option.some.inj hv
      exact hcombine .add
    | sub =>
      obtain rfl := Option.some.inj hv
      exact hcombine .sub
    | and =>
      obtain rfl := Option.some.inj hv
      exact hcombine .and
    | or =>
      obtain rfl := Option.some.inj hv
      exact hcombine .or
    | xor =>
      obtain rfl := Option.some.inj hv
      exact hcombine .xor
    | mul =>
      obtain rfl := Option.some.inj hv
      exact performs_multiplyBy hroom hdest
    | div =>
      simp only [Operation.result?, Option.ite_none_left_eq_some, Bool.not_eq_true, Option.some.injEq] at hv
      obtain ⟨hfails, rfl⟩ := hv
      exact hdivision .quotient hfails
    | mod =>
      simp only [Operation.result?, Option.ite_none_left_eq_some, Bool.not_eq_true, Option.some.injEq] at hv
      obtain ⟨hfails, rfl⟩ := hv
      exact hdivision .remainder hfails
  obtain ⟨t, ht, hsets⟩ := hsets
  exact ⟨t, ht, hsets.value, hsets.others, ht.agreesFrom (contained_updateRegister hdest op value) h (by decide)⟩

/-- An update by an operation without a result breaks off. -/
theorem breaks_updateRegister (h : env.Ready p s) (dest : Reg) (op : Operation) (value : Value)
    (hnone : op.result? (s.get dest).toInt64 (valueWord s value).toInt64 = none) :
    Breaks env (updateRegister dest op value) s .divide := by
  have hdivision : ∀ part, divisionFails (s.get dest).toInt64 (valueWord s value).toInt64 = true →
      Breaks env (X64.divideBy dest value.divisor part) s .divide := by
    intro part hfails
    refine (breaks_divideBy (h.roomAt (by decide)) dest value part ?_).breaks
    rw [divide?_signWord, hfails]
    rfl
  cases op with
  | div =>
    simp only [Operation.result?, ite_eq_left_iff, reduceCtorEq, imp_false, Bool.not_eq_true, Bool.not_eq_false] at hnone
    exact hdivision .quotient hnone
  | mod =>
    simp only [Operation.result?, ite_eq_left_iff, reduceCtorEq, imp_false, Bool.not_eq_true, Bool.not_eq_false] at hnone
    exact hdivision .remainder hnone
  | _ => cases hnone

end

/-! ## Conditions -/

/-- Words with one signed value are equal. -/
theorem signed_inj {a b : UInt64} : signed a = signed b ↔ a = b := by
  constructor
  · intro h
    exact congrArg Int64.toUInt64 (Int64.toInt_inj.1 h)
  · rintro rfl
    rfl

/-- A difference of words has the difference of the signed values, taken around zero. -/
theorem signed_sub (a b : UInt64) : signed (a - b) = Int.bmod (signed a - signed b) (2 ^ 64) := Int64.toInt_sub _ _

/-- A signed value lies within 64 bits. -/
theorem signed_bounds (w : UInt64) : -2 ^ 63 ≤ signed w ∧ signed w < 2 ^ 63 := ⟨Int64.le_toInt _, Int64.toInt_lt _⟩

/-- Behind a compare the sign differs from the overflow exactly when the first number is less. -/
theorem sign_ne_overflow (a b : UInt64) :
    ((aluFlags .cmp a b).sign != (aluFlags .cmp a b).overflow) = decide (signed a < signed b) := by
  have ha := signed_bounds a
  have hb := signed_bounds b
  have hsub := signed_sub a b
  have hresult : signed (a - b) = signed a - signed b ∨ signed (a - b) = signed a - signed b - 2 ^ 64 ∨
      signed (a - b) = signed a - signed b + 2 ^ 64 := by
    rw [hsub, Int.bmod_def]
    split_ifs <;> omega
  have hbounds := signed_bounds (a - b)
  show (decide (signed (a - b) < 0) != (signed a - signed b != signed (a - b))) = _
  rw [Bool.eq_iff_iff]
  simp only [bne_iff_ne, ne_eq, decide_eq_true_eq]
  rcases hresult with h | h | h
  · rw [h, bne_self_eq_false]
    simp only [decide_eq_false_iff_not, not_not]
    omega
  · have hne : (signed a - signed b != signed (a - b)) = true := by
      rw [bne_iff_ne]
      omega
    rw [hne, decide_eq_true_eq]
    omega
  · have hne : (signed a - signed b != signed (a - b)) = true := by
      rw [bne_iff_ne]
      omega
    rw [hne, decide_eq_true_eq]
    omega

/-- A difference is zero exactly for equal words. -/
theorem sub_eq_zero_iff (a b : UInt64) : a - b = 0 ↔ a = b := by
  constructor
  · intro h
    have := congrArg (· + b) h
    simpa using this
  · rintro rfl
    exact UInt64.sub_self a

/-- A condition code holds behind a compare exactly when the comparison holds of the numbers compared. -/
theorem holds_code (c : Comparison) (a b : UInt64) : holds c.code (aluFlags .cmp a b) = c.holds (signed a) (signed b) := by
  have hzero : (aluFlags .cmp a b).zero = decide (signed a = signed b) := by
    show decide (a - b = 0) = _
    rw [decide_eq_decide, sub_eq_zero_iff, signed_inj]
  have hless := sign_ne_overflow a b
  have hnot : ((aluFlags .cmp a b).sign == (aluFlags .cmp a b).overflow) = !decide (signed a < signed b) := by
    rw [← hless, bne, Bool.not_not]
  cases c <;> simp only [Comparison.code, holds, Comparison.holds, hzero, hless, hnot, ← decide_not] <;>
    rw [Bool.eq_iff_iff] <;> simp <;> omega

/-- The code of the complement holds of flags exactly when the code does not. -/
theorem holds_complement_code (c : Comparison) (f : Flags) : holds c.complement.code f = !holds c.code f := by
  obtain ⟨carry, parity, zero, sign, overflow⟩ := f
  cases c <;> cases zero <;> cases sign <;> cases overflow <;> rfl

/-- The number of bytes below the stack pointer that the compare of a condition needs. -/
def compareDepth (c : Condition) : Nat := max (valueDepth c.lhs.value) (valueDepth c.rhs.value)

/-- A compare needs at most the slot for a large immediate. -/
theorem compareDepth_le (c : Condition) : compareDepth c ≤ slotDistance .spill :=
  max_le (valueDepth_le c.lhs.value) (valueDepth_le c.rhs.value)

/-- A compare stays within its depth. -/
theorem contained_compareCode (c : Condition) : ∀ i ∈ c.compareCode, Contained (compareDepth c) i := by
  obtain ⟨⟨lhs, _⟩, comparison, ⟨rhs, _⟩, _⟩ := c
  cases lhs with
  | register r =>
    exact fun i hi => (contained_combine r.hardware_ne_rsp .cmp rhs i (by cases rhs <;> exact hi)).mono (le_max_right _ _)
  | immediate n =>
    cases rhs with
    | register q => exact fun i hi => (contained_aluImmediate q.hardware_ne_rsp .cmp n i hi).mono (le_max_left _ _)
    | immediate m => exact fun i hi => absurd hi List.not_mem_nil

section

variable {env : Environment} {p : Nat} {s : State} {c : Condition}

/-- The code of a compare keeps every register and leaves flags of which its comparison holds exactly when the condition is true. -/
theorem performs_compare (h : env.RoomAt (compareDepth c) p s) (hc : c.bothImmediate = false) :
    ∃ t, Performs env c.compareCode s t ∧ (∀ r, t.get r = s.get r) ∧ holds c.flagComparison.code t.flags =
      c.comparison.holds (signed (valueWord s c.lhs.value)) (signed (valueWord s c.rhs.value)) := by
  obtain ⟨⟨lhs, _⟩, comparison, ⟨rhs, _⟩, _⟩ := c
  cases lhs with
  | register r =>
    have hroom : env.RoomAt (valueDepth rhs) p s := h.mono (le_max_right _ _)
    obtain ⟨t, ht, hsets, hflags⟩ := performs_combine hroom r.hardware_ne_rsp .cmp
    cases rhs with
    | register q => exact ⟨t, ht, hsets.registers, by rw [hflags]; exact holds_code comparison _ _⟩
    | immediate n => exact ⟨t, ht, hsets.registers, by rw [hflags]; exact holds_code comparison _ _⟩
  | immediate n =>
    cases rhs with
    | register q =>
      have hroom : env.RoomAt (immediateDepth n) p s := h.mono (le_max_left _ _)
      obtain ⟨t, ht, hsets, hflags⟩ := performs_aluImmediate hroom q.hardware_ne_rsp .cmp
      refine ⟨t, ht, hsets.registers, ?_⟩
      rw [hflags]
      refine (holds_code comparison.converse _ _).trans ?_
      rw [Comparison.holds_converse]
      rfl
    | immediate m => cases hc

/-- The code of a compare leaves flags of which the branch's condition holds exactly when the condition is false. -/
theorem performs_compareCode (h : env.Ready p s) (hc : c.bothImmediate = false) :
    ∃ t, Performs env c.compareCode s t ∧ Keeps s t ∧ holds c.flagComparison.complement.code t.flags =
      !c.comparison.holds (signed (valueWord s c.lhs.value)) (signed (valueWord s c.rhs.value)) := by
  have hdepth : compareDepth c ≤ reserve := (compareDepth_le c).trans (by decide)
  obtain ⟨t, ht, hregisters, hflags⟩ := performs_compare (h.roomAt hdepth) hc
  refine ⟨t, ht, ⟨hregisters, ht.agreesFrom (contained_compareCode c) h hdepth⟩, ?_⟩
  rw [holds_complement_code, hflags]

end

end RegisterCompiler.Machine
