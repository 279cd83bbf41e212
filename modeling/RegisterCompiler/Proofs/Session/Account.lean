import RegisterCompiler.Proofs.Session.Requests

/-!
# The account of a session

An `Account` is a session together with the handles that only the steps under way know of. `Account.Move` says what a step may do
to it, once for every step of the compiler: write an item, reserve a hole, note a call, fill a hole, or move handles to and from
the loop contexts. All that holds of every session follows from it by cases: every handle stays accounted for (`Account.Sound`),
what is written stays where it is (`Keeps`), and a call leads to a procedure (`Session.CallsLead`).
-/

namespace RegisterCompiler

open X64 (Assembler Filling Handle Hole HoleKind Instruction Item)

/-- The offset of the first procedure of a name that a session has begun. -/
def Session.procedureOffset? (s : Session) (name : String) : Option Nat :=
  (s.procedures.find? fun p => p.1 == name).map Prod.snd

/-- A session, and the handles that only the steps under way know of. -/
structure Account where
  session : Session
  loose : Multiset Handle

namespace Account

/-- What a step of the compiler may do. -/
inductive Move : Account → Account → Prop
  /-- An item that is no hole and no call to code is written. -/
  | write (s : Session) (loose : Multiset Handle) (item : Item) (hole : item.isHole = false)
      (call : ∀ d, item ≠ .instruction (.call d)) :
      Move ⟨s, loose⟩ ⟨{ s with assembler := s.assembler.add item }, loose⟩
  /-- A hole is reserved, and the step knows its handle. -/
  | reserve (s : Session) (loose : Multiset Handle) (kind : HoleKind) :
      Move ⟨s, loose⟩
        ⟨{ s with assembler := (s.assembler.reserve kind).1 }, (s.assembler.reserve kind).2.handle ::ₘ loose⟩
  /-- A hole for a call is noted beside the name of its procedure. -/
  | note (s : Session) (loose : Multiset Handle) (hole : Hole .call) (name : String) :
      Move ⟨s, hole.handle ::ₘ loose⟩ ⟨{ s with calls := s.calls ++ [(hole, name)] }, loose⟩
  /-- A hole is filled by the step that knows its handle; a call leads to the first procedure of some name. -/
  | fill (s : Session) (loose : Multiset Handle) {kind : HoleKind} (hole : Hole kind) (target : Nat) (filling : Filling kind)
      (a : Assembler) (patch : filling.patch s.assembler hole target = .ok a)
      (call : kind = .call → ∃ name, s.procedureOffset? name = some target) :
      Move ⟨s, hole.handle ::ₘ loose⟩ ⟨{ s with assembler := a }, loose⟩
  /-- Handles of jumps change hands between the loop contexts and the step. -/
  | pass (s : Session) (loose : Multiset Handle) (loops : List LoopContext) (loose' : Multiset Handle)
      (same : handlesOf (heldJumps s.loops) + loose = handlesOf (heldJumps loops) + loose') :
      Move ⟨s, loose⟩ ⟨{ s with loops := loops }, loose'⟩

/-- Any number of moves. -/
abbrev Path : Account → Account → Prop := Relation.ReflTransGen Move

/-! ## Every handle is accounted for -/

/-- Every open hole has one handle, which the session or a step under way holds. -/
def Sound (a : Account) : Prop := a.session.unfilled = a.session.held + a.loose

/-- What is left over in a sound account is adrift. -/
theorem Sound.loose_eq {a : Account} (h : a.Sound) : a.loose = a.session.adrift := by
  rw [Session.adrift, h, add_tsub_cancel_left]

/-- A handle that a step under way knows of is that of an open hole. -/
theorem Sound.mem_unfilled {s : Session} {loose : Multiset Handle} {handle : Handle} (h : Sound ⟨s, handle ::ₘ loose⟩) :
    handle ∈ s.unfilled := by
  rw [show s.unfilled = s.held + (handle ::ₘ loose) from h]
  exact Multiset.mem_add.2 (.inr (Multiset.mem_cons_self _ _))

/-- A new session has no hole open and holds no handle. -/
theorem sound_start (intrinsics : Intrinsics) : Sound ⟨.start intrinsics, 0⟩ := rfl

end Account

/-- An item that is written adds its own hole to the open ones, if it is one. -/
theorem unfilled_add (s : Session) (item : Item) :
    Session.unfilled { s with assembler := s.assembler.add item } =
      s.unfilled + ↑(X64.holesOf s.assembler.items.toList.length (X64.itemsSize s.assembler.items.toList) [item]) := by
  simp only [Session.unfilled]
  rw [X64.items_add, X64.holesOf_append, Nat.zero_add, Nat.zero_add, ← Multiset.coe_add]

/-- The handle of a hole that is open stands for the hole at its place. -/
theorem exists_hole_of_mem_unfilled {s : Session} {kind : HoleKind} {hole : Hole kind} (h : hole.handle ∈ s.unfilled) :
    ∃ before behind, s.assembler.items.toList = before ++ .hole kind :: behind ∧
      hole = ⟨before.length, X64.itemsSize before⟩ := by
  obtain ⟨before, behind, hitems, hindex, hoffset⟩ := X64.mem_holesOf_iff.1 (Multiset.mem_coe.1 h)
  rw [Nat.zero_add] at hindex hoffset
  refine ⟨before, behind, hitems, ?_⟩
  cases hole
  cases hindex
  cases hoffset
  rfl

/-- What filling a hole that is open does to the items: the instruction stands in the place of the hole, and it leads exactly to the
target. -/
theorem items_patch {s : Session} {kind : HoleKind} {hole : Hole kind} {target : Nat} {filling : Filling kind} {a : Assembler}
    (h : hole.handle ∈ s.unfilled) (hpatch : filling.patch s.assembler hole target = .ok a) :
    ∃ before behind d, s.assembler.items.toList = before ++ .hole kind :: behind ∧
      a.items.toList = before ++ .instruction (filling.instruction d) :: behind ∧
      hole = ⟨before.length, X64.itemsSize before⟩ ∧
      ((X64.itemsSize before + kind.size : Nat) : Int) + d.toInt = target := by
  obtain ⟨before, behind, hitems, rfl⟩ := exists_hole_of_mem_unfilled h
  rcases X64.Bench.patch_cases filling hitems target with ⟨_, herror⟩ | ⟨_, _, herror⟩ | ⟨_, hreach, a', hok, hitems'⟩
  · rw [herror] at hpatch
    cases hpatch
  · rw [herror] at hpatch
    cases hpatch
  · rw [hok] at hpatch
    obtain rfl := Except.ok.inj hpatch
    exact ⟨before, behind, _, hitems, hitems', rfl, toInt_displacementTo hreach⟩

/-- Filling a hole takes its handle away. -/
theorem unfilled_patch {s : Session} {kind : HoleKind} {hole : Hole kind} {target : Nat} {filling : Filling kind}
    {a : Assembler} (h : hole.handle ∈ s.unfilled) (hpatch : filling.patch s.assembler hole target = .ok a) :
    Session.unfilled { s with assembler := a } = s.unfilled.erase hole.handle := by
  obtain ⟨before, behind, d, hitems, hitems', rfl, -⟩ := items_patch h hpatch
  simp only [Session.unfilled, hitems, hitems']
  rw [X64.holesOf_fill (filling.size_instruction d), Nat.zero_add, Nat.zero_add]
  rfl

namespace Account

variable {a b : Account}

/-- A move loses no handle and makes none up. -/
theorem Move.sound (h : Move a b) (ha : a.Sound) : b.Sound := by
  unfold Sound at ha ⊢
  cases h with
  | write s loose item hole call =>
    have hnone : X64.holesOf s.assembler.items.toList.length (X64.itemsSize s.assembler.items.toList) [item] = [] :=
      X64.holesOf_eq_nil (by simpa using hole) _ _
    rw [unfilled_add, hnone, Multiset.coe_nil, Multiset.add_zero]
    exact ha
  | reserve s loose kind =>
    have hone : X64.holesOf s.assembler.items.toList.length (X64.itemsSize s.assembler.items.toList) [.hole kind] =
        [(s.assembler.reserve kind).2.handle] := by
      rw [← s.assembler.offset_eq]
      rfl
    show Session.unfilled { s with assembler := s.assembler.add (.hole kind) } = _
    rw [unfilled_add, hone, Multiset.coe_singleton, ha]
    show s.held + loose + _ = s.held + _
    rw [← Multiset.singleton_add, add_assoc, add_comm loose]
  | note s loose hole name =>
    show s.unfilled = _
    rw [ha]
    simp only [Session.held, handlesOf_append, handlesOf_cons, handlesOf_nil]
    simp only [← Multiset.singleton_add, add_zero]
    ac_rfl
  | fill s loose hole target filling a patch call =>
    rw [unfilled_patch (Sound.mem_unfilled ha) patch, ha, Multiset.erase_add_right_pos _ (Multiset.mem_cons_self _ _), Multiset.erase_cons_head]
    rfl
  | pass s loose loops loose' same =>
    show s.unfilled = handlesOf s.calls + _ + loose'
    rw [ha, Session.held, add_assoc, same, add_assoc]

/-- Moves keep an account sound. -/
theorem Path.sound (h : Path a b) (ha : a.Sound) : b.Sound := by
  induction h with
  | refl => exact ha
  | tail _ hmove ih => exact hmove.sound ih

/-! ## What every move keeps -/

/-- Moves record no procedure. -/
theorem Path.procedures (h : Path a b) : b.session.procedures = a.session.procedures := by
  induction h with
  | refl => rfl
  | tail _ hmove ih =>
    rw [← ih]
    cases hmove <;> rfl

/-- Moves only add open calls. -/
theorem Path.calls (h : Path a b) : a.session.calls <+: b.session.calls := by
  induction h with
  | refl => exact List.prefix_refl _
  | tail _ hmove ih =>
    refine ih.trans ?_
    cases hmove with
    | note s loose hole name => exact List.prefix_append _ _
    | _ => exact List.prefix_refl _

end Account

/-! ## What stays as a session goes on -/

/-- A session has gone on to another one: what it has written is still where it was, but for the holes, the procedures it has
begun are still the first ones, and its host functions are the same. -/
structure Session.Onward (s s' : Session) : Prop where
  sizes : s.assembler.items.toList.map Item.size <+: s'.assembler.items.toList.map Item.size
  items : ∀ (i : Nat) (item : Item), s.assembler.items.toList[i]? = some item → item.isHole = false →
    s'.assembler.items.toList[i]? = some item
  procedures : s.procedures <+: s'.procedures
  intrinsics : s'.intrinsics = s.intrinsics

namespace Session.Onward

variable {s s' s'' : Session}

theorem refl (s : Session) : s.Onward s := ⟨List.prefix_refl _, fun _ _ h _ => h, List.prefix_refl _, rfl⟩

theorem trans (h : s.Onward s') (h' : s'.Onward s'') : s.Onward s'' :=
  ⟨h.sizes.trans h'.sizes, fun i item hi hhole => h'.items i item (h.items i item hi hhole) hhole,
    h.procedures.trans h'.procedures, h'.intrinsics.trans h.intrinsics⟩

/-- A session goes on by writing an item. -/
theorem of_add (s : Session) (item : Item) : s.Onward { s with assembler := s.assembler.add item } := by
  refine ⟨?_, fun i other hi _ => ?_, List.prefix_refl _, rfl⟩
  · rw [X64.items_add, List.map_append]
    exact List.prefix_append _ _
  · rw [X64.items_add, List.getElem?_append_left (List.getElem?_eq_some_iff.1 hi).1]
    exact hi

/-- The items that are there already take up the same bytes. -/
theorem itemsSize_take (h : s.Onward s') {i : Nat} (hi : i ≤ s.assembler.items.toList.length) :
    X64.itemsSize (s'.assembler.items.toList.take i) = X64.itemsSize (s.assembler.items.toList.take i) := by
  obtain ⟨more, hmore⟩ := h.sizes
  have hsum : ∀ items : List Item, X64.itemsSize items = (items.map Item.size).sum := by
    intro items
    induction items with
    | nil => rfl
    | cons item rest ih => rw [X64.itemsSize, List.map_cons, List.sum_cons, ih]
  rw [hsum, hsum, List.map_take, List.map_take, ← hmore, List.take_append_of_le_length (by rwa [List.length_map])]

/-- A name keeps its first offset as a session goes on. -/
theorem procedureOffset? (h : s.Onward s') {name : String} {target : Nat} (ht : s.procedureOffset? name = some target) :
    s'.procedureOffset? name = some target := by
  obtain ⟨more, hmore⟩ := h.procedures
  obtain ⟨p, hfind, rfl⟩ := Option.map_eq_some_iff.1 ht
  rw [Session.procedureOffset?, ← hmore, List.find?_append, hfind]
  rfl

end Session.Onward

/-! ## Where calls lead -/

/-- The item of a number is a call that leads to the first procedure of a name. -/
def Session.Leads (s : Session) (i : Nat) (name : String) : Prop :=
  ∃ d target, s.assembler.items.toList[i]? = some (.instruction (.call d)) ∧ s.procedureOffset? name = some target ∧
    ((X64.itemsSize (s.assembler.items.toList.take i) + 5 : Nat) : Int) + d.toInt = target

/-- Every call that is written leads to a procedure. -/
def Session.CallsLead (s : Session) : Prop :=
  ∀ (i : Nat) d, s.assembler.items.toList[i]? = some (.instruction (.call d)) → ∃ name, s.Leads i name

/-- A new session has no call that could lead astray. -/
theorem Session.callsLead_start (intrinsics : Intrinsics) : (Session.start intrinsics).CallsLead := by
  intro i d h
  cases h

/-- A call that leads somewhere leads there as the session goes on. -/
theorem Session.Leads.onward {s s' : Session} {i : Nat} {name : String} (h : s.Leads i name) (hs : s.Onward s') :
    s'.Leads i name := by
  obtain ⟨d, target, hi, htarget, hd⟩ := h
  refine ⟨d, target, hs.items i _ hi rfl, hs.procedureOffset? htarget, ?_⟩
  rw [hs.itemsSize_take (Nat.le_of_lt (List.getElem?_eq_some_iff.1 hi).1)]
  exact hd

namespace Account

variable {a b : Account}

/-- Where one item is exchanged, every other item stays. -/
theorem getElem?_exchange {before behind : List Item} {x y z : Item} {i : Nat} (h : (before ++ x :: behind)[i]? = some z) :
    (i = before.length ∧ z = x) ∨ (i ≠ before.length ∧ (before ++ y :: behind)[i]? = some z) := by
  rcases Nat.lt_trichotomy i before.length with hlt | rfl | hgt
  · rw [List.getElem?_append_left hlt] at h ⊢
    exact .inr ⟨Nat.ne_of_lt hlt, h⟩
  · rw [List.getElem?_append_right (Nat.le_refl _), Nat.sub_self] at h
    exact .inl ⟨rfl, (Option.some.inj h).symm⟩
  · obtain ⟨n, hn⟩ : ∃ n, i - before.length = n + 1 := ⟨i - before.length - 1, by omega⟩
    rw [List.getElem?_append_right (Nat.le_of_lt hgt), hn] at h ⊢
    exact .inr ⟨Nat.ne_of_gt hgt, h⟩

/-- A session goes on by filling one of its open holes. -/
theorem onward_patch {s : Session} {kind : HoleKind} {hole : Hole kind} {target : Nat} {filling : Filling kind} {a : Assembler}
    (h : hole.handle ∈ s.unfilled) (hpatch : filling.patch s.assembler hole target = .ok a) :
    s.Onward { s with assembler := a } := by
  obtain ⟨before, behind, d, hitems, hitems', rfl, -⟩ := items_patch h hpatch
  have hsize : (Item.instruction (filling.instruction d)).size = (Item.hole kind).size := by
    rw [X64.size_hole]
    exact filling.size_instruction d
  refine ⟨?_, fun i item hi hhole => ?_, List.prefix_refl _, rfl⟩
  · simp [hitems, hitems', hsize]
  · simp only [hitems, hitems'] at hi ⊢
    rcases getElem?_exchange (y := .instruction (filling.instruction d)) hi with ⟨-, rfl⟩ | ⟨-, hi⟩
    · cases hhole
    · exact hi

/-- A session goes on by every move of a sound account. -/
theorem Move.onward (h : Move a b) (ha : a.Sound) : a.session.Onward b.session := by
  cases h with
  | write s loose item hole call => exact .of_add s item
  | reserve s loose kind => exact .of_add s (.hole kind)
  | note s loose hole name => exact ⟨List.prefix_refl _, fun _ _ h _ => h, List.prefix_refl _, rfl⟩
  | fill s loose hole target filling a patch call => exact onward_patch ha.mem_unfilled patch
  | pass s loose loops loose' same => exact ⟨List.prefix_refl _, fun _ _ h _ => h, List.prefix_refl _, rfl⟩

/-- A session goes on by any moves of a sound account. -/
theorem Path.onward (h : Path a b) (ha : a.Sound) : a.session.Onward b.session := by
  induction h with
  | refl => exact .refl _
  | tail hpath hmove ih => exact ih.trans (hmove.onward (Path.sound hpath ha))

/-- The only calls that are written fill a hole. -/
theorem Move.callsLead (h : Move a b) (ha : a.Sound) (hlead : a.session.CallsLead) : b.session.CallsLead := by
  have honward := h.onward ha
  have hadd : ∀ (s : Session) (item : Item) (i : Nat) (d : Int32), item ≠ .instruction (.call d) →
      (s.assembler.add item).items.toList[i]? = some (.instruction (.call d)) →
        s.assembler.items.toList[i]? = some (.instruction (.call d)) := by
    intro s item i d hitem hi
    rw [X64.items_add, List.getElem?_append] at hi
    split at hi
    · exact hi
    · have := List.mem_singleton.1 (List.mem_of_getElem? hi)
      exact absurd this.symm hitem
  intro i d hi
  cases h with
  | write s loose item hole call =>
    obtain ⟨name, hname⟩ := hlead i d (hadd s item i d (call d) hi)
    exact ⟨name, hname.onward honward⟩
  | reserve s loose kind =>
    obtain ⟨name, hname⟩ := hlead i d (hadd s (.hole kind) i d (by simp) hi)
    exact ⟨name, hname.onward honward⟩
  | note s loose hole name => exact hlead i d hi
  | fill s loose hole target filling a patch call =>
    obtain ⟨before, behind, e, hitems, hitems', rfl, htarget⟩ := items_patch ha.mem_unfilled patch
    simp only [hitems'] at hi
    rcases getElem?_exchange (y := .hole _) hi with ⟨rfl, hcall⟩ | ⟨-, hi⟩
    · -- Only what fills the hole of a call is a call.
      cases filling with
      | call =>
        obtain ⟨name, hname⟩ := call rfl
        obtain rfl := X64.Instruction.call.inj (Item.instruction.inj hcall)
        refine ⟨name, d, target, ?_, hname, ?_⟩
        · simp [hitems', Filling.instruction]
        · simpa [hitems', HoleKind.size] using htarget
      | jump => cases hcall
      | branch comparison inverted => cases hcall
    · obtain ⟨name, hname⟩ := hlead i d (by rw [hitems]; exact hi)
      exact ⟨name, hname.onward honward⟩
  | pass s loose loops loose' same => exact hlead i d hi

/-- Moves of a sound account let every written call lead to a procedure. -/
theorem Path.callsLead (h : Path a b) (ha : a.Sound) (hlead : a.session.CallsLead) : b.session.CallsLead := by
  induction h with
  | refl => exact hlead
  | tail hpath hmove ih => exact hmove.callsLead (Path.sound hpath ha) ih

end Account

end RegisterCompiler
