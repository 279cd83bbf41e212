import RegisterCompiler.Proofs.Execution.Sequences

/-!
# Division

The sequence of a division borrows the three registers that the processor divides with. It keeps them, the dividend and the divisor
in slots first, so that each of the three may be the dividend or the divisor, and puts them back at its end.
-/

namespace RegisterCompiler.Machine

open X64 (DivisionPart Divisor Instruction Reg Sequence Slot)

section

variable {env : Environment} {p : Nat} {s : State}

/-! ## Slots -/

/-- Registers are stored in slots. -/
theorem performs_stores (h : env.RoomAt 40 p s) (stores : List (Slot × Reg)) :
    Performs env (stores.map fun x => X64.storeSlot x.1 x.2) s
      { s with memory := stores.foldl (fun m x => m.setWord (p - slotDistance x.1) (s.get x.2)) s.memory } := by
  induction stores generalizing s with
  | nil => exact .nil s
  | cons x rest ih =>
    obtain ⟨m, hm⟩ : ∃ m, m = s.memory.setWord (p - slotDistance x.1) (s.get x.2) := ⟨_, rfl⟩
    have hrest := @ih { s with memory := m } (h.of_rsp (State.get_withMemory _ _ _))
    simp only [State.get_withMemory] at hrest
    rw [List.foldl_cons, ← hm]
    exact .cons (hm ▸ does_storeSlot h (slotDistance_bounds x.1).2 x.2) hrest

/-- Registers other than the stack pointer are loaded from slots. -/
theorem performs_loads (h : env.RoomAt 40 p s) (loads : List (Reg × Slot)) (hrsp : ∀ x ∈ loads, x.1 ≠ .rsp) :
    Performs env (loads.map fun x => X64.loadSlot x.1 x.2) s
      (loads.foldl (fun t x => t.set x.1 (s.memory.word (p - slotDistance x.2))) s) := by
  induction loads generalizing s with
  | nil => exact .nil s
  | cons x rest ih =>
    obtain ⟨hx, hrest⟩ := List.forall_mem_cons.1 hrsp
    exact .cons (does_loadSlot h (slotDistance_bounds x.2).2 x.1) (ih (h.of_rsp (State.get_set_of_ne _ _ hx.symm)) hrest)

/-- What a slot holds after a store in a slot. -/
theorem word_setWord_slot (h : env.RoomAt 40 p s) (m : Memory) (slot other : Slot) (w : UInt64) :
    (m.setWord (p - slotDistance slot) w).word (p - slotDistance other) =
      if slotDistance slot = slotDistance other then w else m.word (p - slotDistance other) := by
  have hroom := h.depth_le
  have hslot := slotDistance_bounds slot
  have hother := slotDistance_bounds other
  by_cases heq : slotDistance slot = slotDistance other
  · rw [if_pos heq, heq]
    exact Memory.word_setWord _ _ _
  · rw [if_neg heq]
    have hwhole : ∀ x, slotDistance x % 8 = 0 := by
      intro x
      cases x <;> decide
    have := hwhole slot
    have := hwhole other
    exact Memory.word_setWord_of_ne _ _ (by omega) (by omega) (by omega)

/-! ## Dividing -/

/-- The part of a division that is left. -/
def partOf (part : DivisionPart) (quotient remainder : UInt64) : UInt64 :=
  match part with
  | .quotient => quotient
  | .remainder => remainder

/-- What the slots of a division hold: the dividend, and the three registers that are borrowed. -/
structure Filled (p : Nat) (dividend : UInt64) (s : State) : Prop where
  dividend : s.memory.word (p - slotDistance .result) = dividend
  rax : s.memory.word (p - slotDistance .savedRax) = s.get .rax
  rdx : s.memory.word (p - slotDistance .savedRdx) = s.get .rdx
  rbx : s.memory.word (p - slotDistance .savedRbx) = s.get .rbx

/-- The part of a division behind the stores of its operands, with the instruction that takes its divisor to `rbx`. -/
def divideFilled (dest : Reg) (fetch : Instruction) (part : DivisionPart) : Sequence :=
  [X64.loadSlot .rax .result, fetch, .cqo, .divide .rbx, X64.storeSlot .result part.register,
    X64.loadSlot .rax .savedRax, X64.loadSlot .rdx .savedRdx, X64.loadSlot .rbx .savedRbx, X64.loadSlot dest .result]

variable {fetch : Instruction} {a d : UInt64}

/-- The sign of `rax` fills `rdx`. -/
theorem does_cqo (env : Environment) (s : State) : env.Does .cqo s (s.set .rdx (signWord (s.get .rax))) := fun _ _ => rfl

/-- A division that has a quotient puts it into `rax`, and the remainder into `rdx`. -/
theorem does_divide {divisor : Reg} {quotient remainder : UInt64}
    (h : divide? (s.get .rdx) (s.get .rax) (s.get divisor) = some (quotient, remainder)) :
    env.Does (.divide divisor) s { (s.set .rax quotient).set .rdx remainder with flags := env.undefinedFlags } := by
  intro pointer next
  have hget : ∀ r, State.get { s with pointer := pointer } r = s.get r := fun _ => rfl
  simp only [Environment.execute, hget, h]
  rfl

/-- A division without a quotient is a fault. -/
theorem execute_divide_none {divisor : Reg} (h : divide? (s.get .rdx) (s.get .rax) (s.get divisor) = none) (pointer next : UInt64) :
    env.execute { s with pointer := pointer } next (.divide divisor) = .error .divide := by
  have hget : ∀ r, State.get { s with pointer := pointer } r = s.get r := fun _ => rfl
  simp only [Environment.execute, hget, h]

/-- The state in which a division divides. -/
def dividing (s : State) (a d : UInt64) : State := ((s.set .rax a).set .rbx d).set .rdx (signWord a)

/-- What the registers hold when the processor divides: the sign, the divisor and the dividend, and else what they held. -/
theorem get_dividing (s : State) (a d : UInt64) (r : Reg) :
    (dividing s a d).get r =
      if r = .rdx then signWord a else if r = .rbx then d else if r = .rax then a else s.get r := by
  simp only [dividing, State.get_set, eq_comm]

/-- The operands of a division are put where the processor divides. -/
theorem performs_operands (h : env.RoomAt 40 p s) (hfilled : Filled p a s)
    (hfetch : env.Does fetch (s.set .rax a) ((s.set .rax a).set .rbx d)) :
    Performs env [X64.loadSlot .rax .result, fetch, .cqo] s (dividing s a d) := by
  have hload := does_loadSlot h (slotDistance_bounds .result).2 .rax
  rw [hfilled.dividend] at hload
  have hsign := does_cqo env ((s.set .rax a).set .rbx d)
  rw [State.get_set_of_ne _ _ (by decide), State.get_set_self] at hsign
  exact .cons hload (.cons hfetch (.single hsign))

/-- A division without a result breaks off where the processor divides. -/
theorem breaks_divideFilled (h : env.RoomAt 40 p s) (hfilled : Filled p a s)
    (hfetch : env.Does fetch (s.set .rax a) ((s.set .rax a).set .rbx d)) (dest : Reg) (part : DivisionPart)
    (hnone : divide? (signWord a) a d = none) : BreaksAt env (divideFilled dest fetch part) (.divide .rbx) s .divide := by
  refine ⟨_, _, _, rfl, performs_operands h hfilled hfetch, execute_divide_none ?_⟩
  rw [get_dividing, get_dividing, get_dividing]
  exact hnone

/-- Once the processor has divided, the result is kept while the borrowed registers are put back. -/
theorem performs_putBack {u : State} (h : env.RoomAt 40 p s) (hfilled : Filled p a s) (hroom : env.RoomAt 40 p u)
    (hmemory : u.memory = s.memory) (hothers : ∀ r, r ≠ .rax → r ≠ .rdx → r ≠ .rbx → u.get r = s.get r)
    {dest : Reg} (hdest : dest ≠ .rsp) (source : Reg) :
    ∃ t, Performs env [X64.storeSlot .result source, X64.loadSlot .rax .savedRax, X64.loadSlot .rdx .savedRdx,
      X64.loadSlot .rbx .savedRbx, X64.loadSlot dest .result] u t ∧ Sets dest (u.get source) s t := by
  obtain ⟨v, hv⟩ : ∃ v : State, v = { u with memory := s.memory.setWord (p - slotDistance .result) (u.get source) } := ⟨_, rfl⟩
  have hstore : env.Does (X64.storeSlot .result source) u v := by
    have hstore := does_storeSlot hroom (slotDistance_bounds .result).2 source
    rwa [hmemory, ← hv] at hstore
  have hvmemory : v.memory = s.memory.setWord (p - slotDistance .result) (u.get source) := by rw [hv]
  have hvroom : env.RoomAt 40 p v := hroom.of_rsp (by rw [hv, State.get_withMemory])
  have hloads := performs_loads hvroom
    [(.rax, .savedRax), (.rdx, .savedRdx), (.rbx, .savedRbx), (dest, .result)] (by simp [hdest])
  have hword : ∀ slot, slotDistance slot ≠ slotDistance .result →
      v.memory.word (p - slotDistance slot) = s.memory.word (p - slotDistance slot) := by
    intro slot hne
    rw [hvmemory, word_setWord_slot h, if_neg hne.symm]
  have hresult : v.memory.word (p - slotDistance .result) = u.get source := by
    rw [hvmemory, word_setWord_slot h, if_pos rfl]
  simp only [List.foldl_cons, List.foldl_nil, hword .savedRax (by decide), hword .savedRdx (by decide),
    hword .savedRbx (by decide), hresult, hfilled.rax, hfilled.rdx, hfilled.rbx] at hloads
  refine ⟨_, .cons hstore hloads, ⟨State.get_set_self _ _ _, ?_⟩⟩
  intro r hr
  rw [State.get_set_of_ne _ _ hr]
  simp only [State.get_set]
  split_ifs with hrbx hrdx hrax
  · rw [hrbx]
  · rw [hrdx]
  · rw [hrax]
  · rw [hv, State.get_withMemory, hothers r (Ne.symm hrax) (Ne.symm hrdx) (Ne.symm hrbx)]

/-- A division sets its register to the part that is asked for. -/
theorem performs_divideFilled (h : env.RoomAt 40 p s) (hfilled : Filled p a s)
    (hfetch : env.Does fetch (s.set .rax a) ((s.set .rax a).set .rbx d)) {dest : Reg} (hdest : dest ≠ .rsp) (part : DivisionPart)
    {quotient remainder : UInt64} (hsome : divide? (signWord a) a d = some (quotient, remainder)) :
    ∃ t, Performs env (divideFilled dest fetch part) s t ∧ Sets dest (partOf part quotient remainder) s t := by
  obtain ⟨u, hu⟩ : ∃ u : State, u = { ((dividing s a d).set .rax quotient).set .rdx remainder with flags := env.undefinedFlags } :=
    ⟨_, rfl⟩
  have hdivide : env.Does (.divide .rbx) (dividing s a d) u := by
    rw [hu]
    refine does_divide ?_
    rw [get_dividing, get_dividing, get_dividing]
    exact hsome
  have hget : ∀ r, u.get r = if r = .rdx then remainder else if r = .rax then quotient else
      if r = .rbx then d else s.get r := by
    intro r
    simp only [hu, State.get_withFlags, State.get_set, get_dividing, eq_comm]
    split_ifs <;> rfl
  have hpart : u.get part.register = partOf part quotient remainder := by
    rw [hget]
    cases part <;> rfl
  have hothers : ∀ r, r ≠ .rax → r ≠ .rdx → r ≠ .rbx → u.get r = s.get r := by
    intro r hrax hrdx hrbx
    rw [hget, if_neg hrdx, if_neg hrax, if_neg hrbx]
  obtain ⟨t, ht, hsets⟩ := performs_putBack h hfilled (h.of_rsp (hget .rsp)) (by rw [hu]; rfl)
    hothers hdest part.register
  exact ⟨t, (performs_operands h hfilled hfetch).append (.cons hdivide ht), hpart ▸ hsets⟩

/-- The stores of a division's operands. -/
def divisionStores (dest : Reg) (divisor : Value) : List (Slot × Reg) :=
  [(.savedRax, .rax), (.savedRdx, .rdx), (.savedRbx, .rbx), (.result, dest)] ++
    match divisor with
    | .register r => [(.divisor, r.hardware)]
    | .immediate _ => []

/-- The instruction that takes the divisor of a division to `rbx`. -/
def fetchDivisor : Value → Instruction
  | .register _ => X64.loadSlot .rbx .divisor
  | .immediate n => .moveImmediate .rbx n

/-- A division is the stores of its operands and of the registers that it takes, and then the rest. -/
theorem divideBy_eq (dest : Reg) (divisor : Value) (part : DivisionPart) :
    X64.divideBy dest divisor.divisor part =
      (divisionStores dest divisor).map (fun x => X64.storeSlot x.1 x.2) ++ divideFilled dest (fetchDivisor divisor) part := by
  cases divisor <;> rfl

/-- The stores of a division fill the slots, and its divisor can be taken from there. -/
theorem performs_divisionStores (h : env.RoomAt 40 p s) (dest : Reg) (divisor : Value) :
    ∃ t, Performs env ((divisionStores dest divisor).map fun x => X64.storeSlot x.1 x.2) s t ∧
      (∀ r, t.get r = s.get r) ∧ Filled p (s.get dest) t ∧
      ∀ w, env.Does (fetchDivisor divisor) (t.set .rax w) ((t.set .rax w).set .rbx (valueWord s divisor)) := by
  have hstores := performs_stores h (divisionStores dest divisor)
  obtain ⟨m, hm⟩ : ∃ m, m = (divisionStores dest divisor).foldl
    (fun m x => m.setWord (p - slotDistance x.1) (s.get x.2)) s.memory := ⟨_, rfl⟩
  rw [← hm] at hstores
  have hfilled : Filled p (s.get dest) { s with memory := m } := by
    cases divisor <;>
      simp only [divisionStores, List.cons_append, List.nil_append, List.foldl_cons, List.foldl_nil] at hm <;>
      constructor <;> simp +decide only [hm, word_setWord_slot h, State.get_withMemory, if_true, if_false]
  refine ⟨_, hstores, fun r => State.get_withMemory s m r, hfilled, ?_⟩
  intro w
  cases divisor with
  | immediate n => exact fun _ _ => rfl
  | register r =>
    have hroom : env.RoomAt 40 p (State.set { s with memory := m } .rax w) :=
      h.of_rsp (by rw [State.get_set_of_ne _ _ (by decide), State.get_withMemory])
    have hload := does_loadSlot hroom (slotDistance_bounds .divisor).2 .rbx
    have hword : m.word (p - slotDistance .divisor) = s.get r.hardware := by
      simp only [divisionStores, List.cons_append, List.nil_append, List.foldl_cons, List.foldl_nil] at hm
      rw [hm, word_setWord_slot h, if_pos rfl]
    rw [State.memory_set, hword] at hload
    exact hload

/-- A division stays within forty bytes below the stack pointer. -/
theorem contained_divideBy {dest : Reg} (hdest : dest ≠ .rsp) (divisor : Value) (part : DivisionPart) :
    ∀ i ∈ X64.divideBy dest divisor.divisor part, Contained 40 i := by
  have hstore (slot : Slot) (r : Reg) : Contained 40 (X64.storeSlot slot r) := contained_storeSlot (slotDistance_bounds slot).2 r
  have hload (slot : Slot) {r : Reg} (hr : r ≠ .rsp) : Contained 40 (X64.loadSlot r slot) := hr
  rw [divideBy_eq]
  refine List.forall_mem_append.2 ⟨List.forall_mem_map.2 fun x _ => hstore x.1 x.2, ?_⟩
  have hfetch : Contained 40 (fetchDivisor divisor) := by
    cases divisor <;> exact (by decide : Reg.rbx ≠ .rsp)
  simp only [divideFilled, List.mem_cons, List.not_mem_nil, or_false, forall_eq_or_imp, forall_eq]
  exact ⟨hload _ (by decide), hfetch, trivial, trivial, hstore _ _, hload _ (by decide), hload _ (by decide),
    hload _ (by decide), hload _ hdest⟩

/-- A division without a result breaks off where the processor divides. -/
theorem breaks_divideBy (h : env.RoomAt 40 p s) (dest : Reg) (divisor : Value) (part : DivisionPart)
    (hnone : divide? (signWord (s.get dest)) (s.get dest) (valueWord s divisor) = none) :
    BreaksAt env (X64.divideBy dest divisor.divisor part) (.divide .rbx) s .divide := by
  obtain ⟨t, hstores, hget, hfilled, hfetch⟩ := performs_divisionStores h dest divisor
  rw [divideBy_eq]
  exact (breaks_divideFilled (h.of_rsp (hget .rsp)) hfilled (hfetch _) dest part hnone).after hstores

/-- A division sets its register to the quotient or the remainder. -/
theorem performs_divideBy (h : env.RoomAt 40 p s) {dest : Reg} (hdest : dest ≠ .rsp) (divisor : Value) (part : DivisionPart)
    {quotient remainder : UInt64}
    (hsome : divide? (signWord (s.get dest)) (s.get dest) (valueWord s divisor) = some (quotient, remainder)) :
    ∃ t, Performs env (X64.divideBy dest divisor.divisor part) s t ∧ Sets dest (partOf part quotient remainder) s t := by
  obtain ⟨t, hstores, hget, hfilled, hfetch⟩ := performs_divisionStores h dest divisor
  obtain ⟨u, hu, hsets⟩ := performs_divideFilled (h.of_rsp (hget .rsp)) hfilled (hfetch _) hdest part hsome
  rw [divideBy_eq]
  exact ⟨u, hstores.append hu, hsets.value, fun r hr => (hsets.others r hr).trans (hget r)⟩

end

end RegisterCompiler.Machine
