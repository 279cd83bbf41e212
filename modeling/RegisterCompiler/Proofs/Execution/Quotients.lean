import RegisterCompiler.Proofs.Execution.Operations
import RegisterCompiler.Proofs.Execution.Standard

/-!
# What the bytes of a division compute

The bytes of a division leave the quotient or the remainder of two signed numbers in their register and every other register as it
was, whichever of the three registers that the processor divides with are the dividend, the divisor or both (`divided`). The
processor faults on its way through them exactly where the numbers have no quotient in 64 bits, and only where it divides.
-/

namespace RegisterCompiler.Machine

open X64 (DivisionPart Instruction Reg sequenceBytes)

/-- Numbers of which 64 bits hold no quotient. -/
def Undividable (a d : Int) : Prop := d = 0 ∨ a = -2 ^ 63 ∧ d = -1

instance (a d : Int) : Decidable (Undividable a d) := inferInstanceAs (Decidable (_ ∨ _))

/-- The quotient of two numbers, rounded toward zero, or the remainder, which has the sign of the first. -/
def exactPart (part : DivisionPart) (a d : Int) : Int :=
  match part with
  | .quotient => a.tdiv d
  | .remainder => a.tmod d

/-- What the processor does from an offset on where the bytes of a division stand. -/
structure Divided (env : Environment) (o : Nat) (dest : Register) (divisor : Value) (part : DivisionPart) (s : State) : Prop where
  /-- The register gets its part of the quotient, and every other one is kept. -/
  result : ¬Undividable (signed (s.get dest.hardware)) (signed (valueWord s divisor)) →
    ∃ t, Carried env o (X64.divideBy dest.hardware divisor.divisor part) 40 s t ∧
      signed (t.get dest.hardware) = exactPart part (signed (s.get dest.hardware)) (signed (valueWord s divisor)) ∧
      ∀ r, r ≠ dest.hardware → t.get r = s.get r
  /-- Without a quotient the processor comes to where it divides, and faults. -/
  fault : Undividable (signed (s.get dest.hardware)) (signed (valueWord s divisor)) →
    ∃ k u, k < (X64.divideBy dest.hardware divisor.divisor part).length ∧ Path env k (s.goto env o) [] u ∧
      env.fetch u = .ok (.divide .rbx, 3) ∧ env.step u = .error .divide
  /-- It faults nowhere else, and for no other reason. -/
  only : ∀ k es u f, k < (X64.divideBy dest.hardware divisor.divisor part).length → Path env k (s.goto env o) es u →
    env.step u = .error f → Undividable (signed (s.get dest.hardware)) (signed (valueWord s divisor)) ∧ f = .divide ∧
      env.fetch u = .ok (.divide .rbx, 3)
  /-- Until it faults or is through, it writes no more than 40 bytes right below the stack pointer. -/
  untouched : ∀ k es u, k ≤ (X64.divideBy dest.hardware divisor.divisor part).length → Path env k (s.goto env o) es u →
    es = [] ∧ Untouched 40 s u

/-- A division fails by zero, and for the smallest number by minus one. -/
theorem divisionFails_iff (a d : Int64) : divisionFails a d = true ↔ Undividable a.toInt d.toInt := by
  have hmin : a = Int64.minValue ↔ a.toInt = -2 ^ 63 := Int64.toInt_inj.symm
  have hone : d = -1 ↔ d.toInt = -1 := Int64.toInt_inj.symm
  have hzero : d = 0 ↔ d.toInt = 0 := Int64.toInt_inj.symm
  unfold divisionFails Undividable
  simp only [decide_eq_true_eq, hmin, hone, hzero]

/-- The part of a division of words is the part of the numbers. -/
theorem signed_partOf {a d : Int64} (h : ¬Undividable a.toInt d.toInt) (part : DivisionPart) :
    signed (partOf part (a / d).toUInt64 (a % d).toUInt64) = exactPart part a.toInt d.toInt := by
  cases part with
  | quotient =>
    refine toInt_div fun ⟨ha, hd⟩ => h (Or.inr ?_)
    rw [ha, hd]
    decide
  | remainder => exact Int64.toInt_mod _ _

/-- The bytes of a division divide. -/
theorem divided {env : Environment} {o : Nat} {s : State} (dest : Register) (divisor : Value) (part : DivisionPart)
    (hcode : env.Holds o (sequenceBytes (X64.divideBy dest.hardware divisor.divisor part))) (hroom : env.Room 40 s) :
    Divided env o dest divisor part s := by
  have hcontained := contained_divideBy dest.hardware_ne_rsp divisor part
  have hat := hroom.roomAt (by decide)
  have hdivide := divide?_signWord (s.get dest.hardware) (valueWord s divisor)
  have hiff := divisionFails_iff (s.get dest.hardware).toInt64 (valueWord s divisor).toInt64
  have hresult : ¬Undividable (signed (s.get dest.hardware)) (signed (valueWord s divisor)) →
      ∃ t, Carried env o (X64.divideBy dest.hardware divisor.divisor part) 40 s t ∧
        signed (t.get dest.hardware) = exactPart part (signed (s.get dest.hardware)) (signed (valueWord s divisor)) ∧
        ∀ r, r ≠ dest.hardware → t.get r = s.get r := by
    intro h
    rw [if_neg fun hfails => h (hiff.1 hfails)] at hdivide
    obtain ⟨t, ht, hsets⟩ := performs_divideBy hat dest.hardware_ne_rsp divisor part hdivide
    exact ⟨t, ht.carried hcode.codeAt hcontained, hsets.value ▸ signed_partOf h part, hsets.others⟩
  have hfault : Undividable (signed (s.get dest.hardware)) (signed (valueWord s divisor)) →
      ∃ k u, k < (X64.divideBy dest.hardware divisor.divisor part).length ∧ Path env k (s.goto env o) [] u ∧
        env.fetch u = .ok (.divide .rbx, 3) ∧ env.step u = .error .divide := by
    intro h
    rw [if_pos (hiff.2 h)] at hdivide
    exact (breaks_divideBy hat dest.hardware divisor part hdivide).path hcode.codeAt
  refine ⟨hresult, hfault, ?_, ?_⟩
  · intro k es u f hk hpath hstep
    by_cases h : Undividable (signed (s.get dest.hardware)) (signed (valueWord s divisor))
    · obtain ⟨_, v, -, hv, hfetch, hfaults⟩ := hfault h
      obtain ⟨rfl, rfl⟩ := hv.fault_unique hfaults hpath hstep
      exact ⟨h, rfl, hfetch⟩
    · obtain ⟨t, ht, -⟩ := hresult h
      obtain ⟨_, hok⟩ := ht.path.step_ok hpath hk
      cases hok.symm.trans hstep
  · intro k es u hk hpath
    exact hcode.codeAt.untouched hcontained hpath hk

/-- A state at the standard stack pointer with two numbers in the registers that the processor divides with. -/
def dividendState (rax rdx : Int64) : State :=
  ⟨((Registers.zero.set .rsp standardStackPointer).set .rax rax.toUInt64).set .rdx rdx.toUInt64,
    ⟨false, false, false, false, false⟩, Memory.zero, 0⟩

/-- The code that divides `rdx` by `rax`, in the standard environment. -/
def aliasedDivision : Environment := standardEnvironment (sequenceBytes (X64.divideBy .rdx (.register .rax) .quotient)) ⟨1, 2⟩

/-- With the divisor in `rax` and the dividend in `rdx` there is the quotient if there is one, and a fault if not. -/
theorem divided_aliasedDivision :
    (∃ n t, Path aliasedDivision n ((dividendState 2 (-7)).goto aliasedDivision 0) [] t ∧ signed (t.get .rdx) = -3 ∧
      signed (t.get .rax) = 2) ∧
    ∃ n t, Path aliasedDivision n ((dividendState 0 (-7)).goto aliasedDivision 0) [] t ∧
      aliasedDivision.step t = .error .divide := by
  have hsize : (sequenceBytes (X64.divideBy .rdx (.register .rax) .quotient)).length ≤ codeLimit := by decide +kernel
  have hcode : aliasedDivision.Holds 0 (sequenceBytes (X64.divideBy .rdx (.register .rax) .quotient)) :=
    holds_standardEnvironment hsize
  have hroom (a d : Int64) : aliasedDivision.Room 40 (dividendState a d) := room_standardEnvironment hsize rfl (by decide)
  constructor
  · obtain ⟨t, ht, hvalue, hothers⟩ := (divided .rdx (.register .rax) .quotient hcode (hroom 2 (-7))).result (by decide)
    refine ⟨_, _, ht.path, ?_, ?_⟩
    · rw [State.get_goto]
      exact hvalue.trans (by decide)
    · rw [State.get_goto, hothers .rax (by decide)]
      decide
  · obtain ⟨n, t, -, hpath, -, hstep⟩ :=
      (divided .rdx (.register .rax) .quotient hcode (hroom 0 (-7))).fault (.inl (by decide))
    exact ⟨n, t, hpath, hstep⟩

end RegisterCompiler.Machine
