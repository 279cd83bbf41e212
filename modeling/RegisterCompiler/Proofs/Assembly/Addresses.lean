import RegisterCompiler.Proofs.Assembly.Bench
import RegisterCompiler.Proofs.Session.Extended
import RegisterCompiler.Proofs.Word

/-!
# Targets of addresses

An address should lead to its target or be refused (`Bench.ReachesOrRefuses`). It does for every target except those that, taken as
signed numbers, lie below the code: the difference to the lower ones overflows, and the upper ones are taken for targets just before
the code, which are within reach (`Bench.reachesOrRefuses_iff`).
-/

namespace RegisterCompiler.X64

/-- The difference to a target overflows: as a signed number the target is too far below the end of its instruction. -/
def DifferenceOverflows (target stop : Nat) : Prop := 2 ^ 63 ≤ target ∧ target < 2 ^ 63 + stop

/-- A target is taken for one before the code that is within reach of the end of its instruction. -/
def WrapsAround (target stop : Nat) : Prop := 2 ^ 64 - 2 ^ 31 + stop ≤ target

/-! ## Displacements -/

/-- The bounds of a signed 32-bit number, as powers of two. -/
theorem fits_iff {difference : Int} : Int32.minValue.toInt ≤ difference ∧ difference ≤ Int32.maxValue.toInt ↔
    -2 ^ 31 ≤ difference ∧ difference < 2 ^ 31 := by
  have hmin : Int32.minValue.toInt = -2 ^ 31 := by decide
  have hmax : Int32.maxValue.toInt = 2 ^ 31 - 1 := by decide
  rw [hmin, hmax]
  omega

/-- A difference within 32 bits is a displacement. -/
theorem displacement?_of_fits {difference : Int} (h : -2 ^ 31 ≤ difference ∧ difference < 2 ^ 31) :
    ∃ d, displacement? difference = some d ∧ d.toInt = difference :=
  ⟨Int32.ofInt difference, if_pos (fits_iff.2 h), Int32.toInt_ofInt_of_le h.1 h.2⟩

/-- A difference beyond 32 bits is none. -/
theorem displacement?_of_not_fits {difference : Int} (h : ¬(-2 ^ 31 ≤ difference ∧ difference < 2 ^ 31)) :
    displacement? difference = none :=
  if_neg (mt fits_iff.1 h)

/-- Reach in powers of two. -/
theorem inReach_iff {target stop : Nat} :
    InReach target stop ↔ -2 ^ 31 ≤ (target : Int) - stop ∧ (target : Int) - stop < 2 ^ 31 :=
  fits_iff

namespace Bench

variable {b : Bench} {dest : Reg} {target : UInt64}

/-- The bench with one more instruction written. -/
def withInstruction (b : Bench) (i : Instruction) : Bench := { b with assembler := b.assembler.emit i }

/-! ## What comes of an address -/

/-- A difference below the signed 64-bit numbers overflows. -/
theorem emitAddress_of_low (h : target.toInt64.toInt - (b.assembler.offset + 7 : Nat) < -2 ^ 63) :
    b.assembler.emitAddress dest target = .error .differenceOverflow := by
  have hmin : Int64.minValue.toInt = -2 ^ 63 := by decide
  unfold Assembler.emitAddress Assembler.signedDifference
  rw [hmin, if_pos h]
  rfl

/-- Where the difference does not overflow, only its range decides between an instruction and a refusal. -/
theorem make_address (h : -2 ^ 63 ≤ target.toInt64.toInt - (b.assembler.offset + 7 : Nat)) :
    b.make (.address dest target) =
      match displacement? (target.toInt64.toInt - (b.assembler.offset + 7 : Nat)) with
      | none => some (b, .error (.outOfRange b.assembler.offset target.toNat))
      | some d => some (b.withInstruction (.address dest d), .ok ()) := by
  have hmin : Int64.minValue.toInt = -2 ^ 63 := by decide
  have hemit : b.assembler.emitAddress dest target =
      .ok (match displacement? (target.toInt64.toInt - (b.assembler.offset + 7 : Nat)) with
        | none => .error (.outOfRange b.assembler.offset target.toNat)
        | some d => .ok (b.assembler.emit (.address dest d))) := by
    unfold Assembler.emitAddress Assembler.signedDifference
    rw [hmin, if_neg (Int.not_lt.2 h)]
    rfl
  rw [make, hemit]
  cases displacement? (target.toInt64.toInt - (b.assembler.offset + 7 : Nat)) <;> rfl

/-- An address reaches its target or is refused: if the target is within reach, seven bytes are written that lead to it; otherwise
the target is refused and everything stays as it is. -/
def ReachesOrRefuses (b : Bench) (dest : Reg) (target : UInt64) : Prop :=
  if InReach target.toNat (b.assembler.offset + 7) then
    ∃ d, b.make (.address dest target) = some (b.withInstruction (.address dest d), .ok ()) ∧
      (Instruction.address dest d).size = 7 ∧ ((b.assembler.offset + 7 : Nat) : Int) + d.toInt = target.toNat
  else b.make (.address dest target) = some (b, .error (.outOfRange b.assembler.offset target.toNat))

/-- A target in the lower half of the offsets is reached or refused. -/
theorem reachesOrRefuses_of_lt (hroom : b.assembler.offset + 7 ≤ capacity) (h : target.toNat < 2 ^ 63) :
    b.ReachesOrRefuses dest target := by
  have hvalue := toInt_toInt64_of_lt h
  have hstop : (b.assembler.offset + 7 : Nat) ≤ 2 ^ 63 - 1 := hroom
  unfold ReachesOrRefuses
  rw [make_address (by omega), hvalue]
  split
  case isTrue hreach =>
    obtain ⟨d, hd, hdiff⟩ := displacement?_of_fits (inReach_iff.1 hreach)
    rw [hd]
    exact ⟨d, rfl, rfl, by omega⟩
  case isFalse hreach => rw [displacement?_of_not_fits fun hfits => hreach (inReach_iff.2 hfits)]

/-- A target in the upper half is refused, as long as it is far from the code as a signed number too. -/
theorem reachesOrRefuses_of_le (hle : 2 ^ 63 ≤ target.toNat) (hroom : b.assembler.offset + 7 ≤ capacity)
    (hoverflow : ¬DifferenceOverflows target.toNat (b.assembler.offset + 7))
    (hwraps : ¬WrapsAround target.toNat (b.assembler.offset + 7)) : b.ReachesOrRefuses dest target := by
  have hvalue := toInt_toInt64_of_le hle
  have hstop : (b.assembler.offset + 7 : Nat) ≤ 2 ^ 63 - 1 := hroom
  unfold DifferenceOverflows at hoverflow
  unfold WrapsAround at hwraps
  have hfar : ¬InReach target.toNat (b.assembler.offset + 7) := by
    rw [inReach_iff]
    omega
  unfold ReachesOrRefuses
  rw [if_neg hfar, make_address (by omega), displacement?_of_not_fits (by omega)]

/-- The assembler gives up at a target for which the difference overflows. -/
theorem emitAddress_of_overflows (h : DifferenceOverflows target.toNat (b.assembler.offset + 7)) :
    b.assembler.emitAddress dest target = .error .differenceOverflow := by
  have hvalue := toInt_toInt64_of_le h.1
  have hlow := h.2
  exact emitAddress_of_low (by omega)

/-- At the top of the range the target is taken for one before the code, and the instruction is written. -/
theorem make_address_of_wraps (h : WrapsAround target.toNat (b.assembler.offset + 7)) :
    ∃ d, b.make (.address dest target) = some (b.withInstruction (.address dest d), .ok ()) ∧
      ((b.assembler.offset + 7 : Nat) : Int) + d.toInt = target.toNat - 2 ^ 64 := by
  unfold WrapsAround at h
  have hlt := target.toNat_lt
  have hvalue := toInt_toInt64_of_le (w := target) (by omega)
  obtain ⟨d, hd, hdiff⟩ := @displacement?_of_fits (target.toInt64.toInt - (b.assembler.offset + 7 : Nat)) (by omega)
  refine ⟨d, ?_, by omega⟩
  rw [make_address (by omega), hd]

/-- An overflow is neither of the two. -/
theorem not_reachesOrRefuses_of_overflows (h : DifferenceOverflows target.toNat (b.assembler.offset + 7)) :
    ¬b.ReachesOrRefuses dest target := by
  have hnone : b.make (.address dest target) = none := by rw [make, emitAddress_of_overflows h]
  unfold ReachesOrRefuses
  split
  · rintro ⟨d, hd, -⟩
    rw [hnone] at hd
    cases hd
  · intro hrefused
    rw [hnone] at hrefused
    cases hrefused

/-- An address that leads below its target neither reaches nor refuses it. -/
theorem not_reachesOrRefuses_of_wraps (h : WrapsAround target.toNat (b.assembler.offset + 7)) :
    ¬b.ReachesOrRefuses dest target := by
  obtain ⟨d, hmake, -⟩ := @make_address_of_wraps b dest target h
  have hfar : ¬InReach target.toNat (b.assembler.offset + 7) := by
    unfold WrapsAround at h
    rw [inReach_iff]
    omega
  unfold ReachesOrRefuses
  rw [if_neg hfar, hmake]
  intro hrefused
  obtain ⟨-, hresult⟩ := Prod.mk.inj (Option.some.inj hrefused)
  cases hresult

/-- Which targets an address reaches or refuses, whatever was written before, and what comes of the others: an overflow, or an
address that leads exactly 2^64 below its target, to before the start of the code. -/
theorem reachesOrRefuses_iff (b : Bench) (dest : Reg) (target : UInt64) (hroom : b.assembler.offset + 7 ≤ capacity) :
    (b.ReachesOrRefuses dest target ↔ ¬DifferenceOverflows target.toNat (b.assembler.offset + 7) ∧
      ¬WrapsAround target.toNat (b.assembler.offset + 7)) ∧
    (DifferenceOverflows target.toNat (b.assembler.offset + 7) →
      b.assembler.emitAddress dest target = .error .differenceOverflow) ∧
    (WrapsAround target.toNat (b.assembler.offset + 7) →
      ∃ d, b.make (.address dest target) = some (b.withInstruction (.address dest d), .ok ()) ∧
        ((b.assembler.offset + 7 : Nat) : Int) + d.toInt = target.toNat - 2 ^ 64) := by
  refine ⟨⟨fun h => ⟨?_, ?_⟩, ?_⟩, emitAddress_of_overflows, make_address_of_wraps⟩
  · exact fun hoverflow => not_reachesOrRefuses_of_overflows hoverflow h
  · exact fun hwraps => not_reachesOrRefuses_of_wraps hwraps h
  · rintro ⟨hoverflow, hwraps⟩
    rcases Nat.lt_or_ge target.toNat (2 ^ 63) with hlt | hle
    · exact reachesOrRefuses_of_lt hroom hlt
    · exact reachesOrRefuses_of_le hle hroom hoverflow hwraps

/-- The last of all offsets is accepted in code that is still empty. -/
theorem reachesOrRefuses_iff_topmost : start.assembler.offset + 7 ≤ capacity ∧
    ∃ d, start.make (.address .rdi 18446744073709551615) = some (start.withInstruction (.address .rdi d), .ok ()) ∧
      ((start.assembler.offset + 7 : Nat) : Int) + d.toInt = -1 := by
  have hroom : start.assembler.offset + 7 ≤ capacity := by decide
  have hwraps : WrapsAround (18446744073709551615 : UInt64).toNat (start.assembler.offset + 7) := by
    unfold WrapsAround
    decide
  obtain ⟨d, hmake, hd⟩ := (reachesOrRefuses_iff start .rdi 18446744073709551615 hroom).2.2 hwraps
  exact ⟨hroom, d, hmake, hd⟩

example : ((start.run [.address .rdi 18446744073709551615]).bind fun b => b.assembler.finish.toOption).map
    (fun code => listing unnamed code.data code.bytes) = some (.error (.invalidTarget 0 (-1))) := by decide +kernel

/-- In code that is still empty, an address neither reaches nor refuses the first offset of the upper half, nor the last one. -/
theorem not_reachesOrRefuses_start :
    ¬start.ReachesOrRefuses .rdi 9223372036854775808 ∧ ¬start.ReachesOrRefuses .rdi 18446744073709551615 := by
  constructor
  · refine not_reachesOrRefuses_of_overflows ?_
    unfold DifferenceOverflows
    decide
  · refine not_reachesOrRefuses_of_wraps ?_
    unfold WrapsAround
    decide

end Bench

end RegisterCompiler.X64
