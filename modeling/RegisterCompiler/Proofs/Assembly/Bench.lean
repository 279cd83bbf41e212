import RegisterCompiler.Proofs.Session.Written

/-!
# An assembler in use

A `Bench` is an assembler with the handles that its caller still holds and with an account of the holes: those reserved and not
filled so far, and how many were reserved and filled. `Bench.make` makes one call; it is undefined where the caller holds no such
handle and where the assembler refuses a misuse. A handle is used up by the call that fills its hole, also if that call fails.
Each call does one of three things to the code (`Bench.Step`), and from these the account is found to be kept
(`Bench.kept_of_run`).
-/

namespace RegisterCompiler.X64

/-- A handle: a reserved hole, which can be filled once. -/
structure Handle where
  kind : HoleKind
  index : Nat
  offset : Nat
  deriving DecidableEq, Repr

/-- The handle of a hole. -/
def Hole.handle {kind : HoleKind} (hole : Hole kind) : Handle := ⟨kind, hole.index, hole.offset⟩

/-- The offset of a byte that belongs to a hole. -/
def Handle.Covers (h : Handle) (offset : Nat) : Prop := h.offset ≤ offset ∧ offset < h.offset + h.kind.size

instance (h : Handle) (offset : Nat) : Decidable (h.Covers offset) := inferInstanceAs (Decidable (_ ∧ _))

/-- What a hole of a kind is filled with. -/
inductive Filling : HoleKind → Type where
  | jump : Filling .jump
  /-- A branch that is taken if the comparison holds, or if it does not where inverted. -/
  | branch (comparison : Comparison) (inverted : Bool) : Filling .branch
  | call : Filling .call

/-- The instruction that fills a hole, with its displacement. -/
def Filling.instruction {kind : HoleKind} : Filling kind → Int32 → Instruction
  | jump => .jump
  | branch comparison inverted => .branch (if inverted then comparison.complement else comparison).code
  | call => .call

/-- Fills a hole. -/
def Filling.patch {kind : HoleKind} (filling : Filling kind) (a : Assembler) (hole : Hole kind) (target : Nat) :
    Except AssemblyError Assembler :=
  match filling with
  | jump => a.patchJump hole target
  | branch comparison inverted => a.patchBranch hole target comparison inverted
  | call => a.patchCall hole target

/-- A call that writes instructions which refer to no code. -/
inductive Emission where
  | move (dest source : Reg)
  | moveImmediate (dest : Reg) (imm : Int64)
  | alu (op : Alu) (dest source : Reg)
  | aluImmediate (op : Alu) (dest : Reg) (imm : Int64)
  | multiply (dest source : Reg)
  | multiplyImmediate (dest : Reg) (imm : Int64)
  /-- Divides a register, whatever registers the processor divides in. -/
  | divideBy (dest : Reg) (divisor : Divisor) (part : DivisionPart)
  | extendSign
  /-- The processor's own division. -/
  | divide (divisor : Reg)
  | push (r : Reg)
  | pop (r : Reg)
  | pushAll
  | popAll
  | callRegister (r : Reg)
  | ret

/-- The instructions of an emission. -/
def Emission.sequence : Emission → Sequence
  | move dest source => [.move dest source]
  | moveImmediate dest imm => [.moveImmediate dest imm]
  | alu op dest source => [.alu op dest source]
  | aluImmediate op dest imm => X64.aluImmediate op dest imm
  | multiply dest source => [.multiply dest source]
  | multiplyImmediate dest imm => X64.multiplyImmediate dest imm
  | divideBy dest divisor part => X64.divideBy dest divisor part
  | extendSign => [.cqo]
  | divide divisor => [.divide divisor]
  | push r => [.push r]
  | pop r => [.pop r]
  | pushAll => X64.pushAll
  | popAll => X64.popAll
  | callRegister r => [.callRegister r]
  | ret => [.ret]

/-- A call of an assembler. An operation on flags stands for every call that only names it: an addition, a compare with its
operands either way round. -/
inductive Call where
  | emit (emission : Emission)
  | address (dest : Reg) (target : UInt64)
  | storeSlot (slot : Slot) (source : Reg)
  | loadSlot (dest : Reg) (slot : Slot)
  | embed (bytes : List UInt8)
  | reserve (kind : HoleKind)
  | patch {kind : HoleKind} (hole : Hole kind) (target : Nat) (filling : Filling kind)
  | jumpBack (target : Nat)

/-- An assembler, the handles that its caller has not used yet, and the account of its holes. -/
structure Bench where
  assembler : Assembler := .empty
  held : List Handle := []
  /-- The holes reserved and not filled so far. -/
  unfilled : List Handle := []
  /-- The number of holes reserved so far. -/
  reserved : Nat := 0
  /-- The number of holes filled so far. -/
  filled : Nat := 0

namespace Bench

/-- The bench before the first call. -/
def start : Bench := {}

/-- The bench with one more hole reserved. -/
def withHole (b : Bench) (kind : HoleKind) : Bench :=
  { b with
    assembler := (b.assembler.reserve kind).1
    unfilled := b.unfilled ++ [(b.assembler.reserve kind).2.handle]
    reserved := b.reserved + 1 }

/-- The bench behind an attempt to fill a hole, and how it went. -/
def attempt {kind : HoleKind} (b : Bench) (hole : Hole kind) (result : Except AssemblyError Assembler) :
    Bench × Except AssemblyError Unit :=
  match result with
  | .error e => (b, .error e)
  | .ok a => ({ b with assembler := a, unfilled := b.unfilled.erase hole.handle, filled := b.filled + 1 }, .ok ())

/-- Makes a call: the bench behind it and what the assembler answers. -/
def make (b : Bench) : Call → Option (Bench × Except AssemblyError Unit)
  | .emit emission => some ({ b with assembler := b.assembler.emitAll emission.sequence }, .ok ())
  | .address dest target =>
    match b.assembler.emitAddress dest target with
    | .error _ => none
    | .ok (.error e) => some (b, .error e)
    | .ok (.ok a) => some ({ b with assembler := a }, .ok ())
  | .storeSlot _ _ | .loadSlot _ _ =>
    match b.assembler.accessSlot with
    | .error _ => none
    | .ok a => some ({ b with assembler := a }, .ok ())
  | .embed bytes => some ({ b with assembler := (b.assembler.embed bytes).1 }, .ok ())
  | .reserve kind => some ({ b.withHole kind with held := (b.assembler.reserve kind).2.handle :: b.held }, .ok ())
  | .patch hole target filling =>
    if hole.handle ∈ b.held then
      some (attempt { b with held := b.held.erase hole.handle } hole (filling.patch b.assembler hole target))
    else none
  | .jumpBack target =>
    let kept := b.withHole .jump
    match b.assembler.jumpBack target with
    | (a, .error e) => some ({ kept with assembler := a }, .error e)
    | (a, .ok ()) =>
      some ({ kept with assembler := a, unfilled := b.unfilled, filled := b.filled + 1 }, .ok ())

/-- Makes calls one after another. -/
def run (b : Bench) : List Call → Option Bench
  | [] => some b
  | c :: rest => (b.make c).bind fun p => p.1.run rest

/-- What is written so far. -/
def items (b : Bench) : List Item := b.assembler.items.toList

/-- The bytes written so far. -/
def bytes (b : Bench) : List UInt8 := b.assembler.bytes

end Bench

/-- Items have as many bytes as their sizes say. -/
theorem length_flatMap_encode (items : List Item) : (items.flatMap Item.encode).length = itemsSize items := by
  induction items with
  | nil => rfl
  | cons item rest ih => rw [List.flatMap_cons, List.length_append, ih, itemsSize, Item.size]

/-! ## The holes among items -/

/-- The handles of the holes among items, of which the first has the given number and offset. -/
def holesOf (index offset : Nat) : List Item → List Handle
  | [] => []
  | .hole kind :: rest => ⟨kind, index, offset⟩ :: holesOf (index + 1) (offset + kind.size) rest
  | item :: rest => holesOf (index + 1) (offset + item.size) rest

/-- A hole is as large as its kind. -/
theorem size_hole (kind : HoleKind) : (Item.hole kind).size = kind.size := by
  simp [Item.size, Item.encode]

/-- The holes of a list are those of its first item and those of the rest, with index and offset moved on. -/
theorem holesOf_cons (index offset : Nat) (item : Item) (rest : List Item) :
    holesOf index offset (item :: rest) =
      holesOf index offset [item] ++ holesOf (index + 1) (offset + item.size) rest := by
  cases item with
  | hole kind => rw [size_hole]; rfl
  | instruction i => rfl
  | data bytes => rfl

/-- The holes of two lists in a row are those of the two, the second ones moved behind the first list. -/
theorem holesOf_append (index offset : Nat) (a b : List Item) :
    holesOf index offset (a ++ b) =
      holesOf index offset a ++ holesOf (index + a.length) (offset + itemsSize a) b := by
  induction a generalizing index offset with
  | nil => rfl
  | cons item rest ih =>
    rw [List.cons_append, holesOf_cons, holesOf_cons index offset item rest, ih, List.append_assoc]
    rw [show index + (item :: rest).length = index + 1 + rest.length by simp only [List.length_cons]; omega,
      show offset + itemsSize (item :: rest) = offset + item.size + itemsSize rest by simp only [itemsSize]; omega]

/-- Items without a hole have no handle. -/
theorem holesOf_eq_nil {items : List Item} (h : ∀ item ∈ items, item.isHole = false) (index offset : Nat) :
    holesOf index offset items = [] := by
  induction items generalizing index offset with
  | nil => rfl
  | cons item rest ih =>
    rw [holesOf_cons, ih fun other hother => h other (.tail _ hother)]
    cases item with
    | hole kind => exact absurd (h _ (.head _)) (by simp [Item.isHole])
    | instruction i => rfl
    | data bytes => rfl

/-- There are as many handles as open holes. -/
theorem length_holesOf (index offset : Nat) (items : List Item) :
    (holesOf index offset items).length = items.countP Item.isHole := by
  induction items generalizing index offset with
  | nil => rfl
  | cons item rest ih =>
    rw [holesOf_cons, List.length_append, ih, List.countP_cons]
    cases item <;> simp [holesOf, Item.isHole, Nat.add_comm]

/-- A handle belongs to the items exactly if a hole of its kind stands at its number and offset. -/
theorem mem_holesOf_iff {index offset : Nat} {items : List Item} {h : Handle} :
    h ∈ holesOf index offset items ↔ ∃ before behind, items = before ++ .hole h.kind :: behind ∧
      h.index = index + before.length ∧ h.offset = offset + itemsSize before := by
  constructor
  · intro hmem
    induction items generalizing index offset with
    | nil => exact absurd hmem List.not_mem_nil
    | cons item rest ih =>
      rw [holesOf_cons, List.mem_append] at hmem
      rcases hmem with hmem | hmem
      · cases item with
        | hole kind =>
          obtain rfl := List.mem_singleton.1 hmem
          exact ⟨[], rest, rfl, rfl, rfl⟩
        | instruction i => exact absurd hmem List.not_mem_nil
        | data bytes => exact absurd hmem List.not_mem_nil
      · obtain ⟨before, behind, rfl, hindex, hoffset⟩ := ih hmem
        refine ⟨item :: before, behind, rfl, ?_, ?_⟩
        · rw [hindex, List.length_cons]
          omega
        · rw [hoffset, itemsSize]
          omega
  · rintro ⟨before, behind, rfl, hindex, hoffset⟩
    rw [holesOf_append, ← hindex, ← hoffset]
    exact List.mem_append_right _ (.head _)

/-- The index of a handle is that of an item of the list. -/
theorem le_index_of_mem_holesOf {index offset : Nat} {items : List Item} {h : Handle} (hmem : h ∈ holesOf index offset items) :
    index ≤ h.index ∧ h.index < index + items.length := by
  obtain ⟨before, behind, rfl, hindex, -⟩ := mem_holesOf_iff.1 hmem
  rw [hindex, List.length_append, List.length_cons]
  omega

/-- No two holes have one handle. -/
theorem nodup_holesOf (index offset : Nat) (items : List Item) : (holesOf index offset items).Nodup := by
  induction items generalizing index offset with
  | nil => exact List.nodup_nil
  | cons item rest ih =>
    rw [holesOf_cons]
    cases item with
    | hole kind =>
      refine List.nodup_cons.2 ⟨fun hmem => ?_, ih _ _⟩
      have : index + 1 ≤ index := (le_index_of_mem_holesOf hmem).1
      omega
    | instruction i => exact ih _ _
    | data bytes => exact ih _ _

/-- Filling a hole takes its handle away and leaves the others. -/
theorem holesOf_fill {kind : HoleKind} {i : Instruction} (hsize : i.size = kind.size) (index offset : Nat)
    (before behind : List Item) :
    holesOf index offset (before ++ .instruction i :: behind) =
      (holesOf index offset (before ++ .hole kind :: behind)).erase
        ⟨kind, index + before.length, offset + itemsSize before⟩ := by
  have hnot : ⟨kind, index + before.length, offset + itemsSize before⟩ ∉ holesOf index offset before := by
    intro hmem
    have : index + before.length < index + before.length := (le_index_of_mem_holesOf hmem).2
    omega
  rw [holesOf_append, holesOf_append, List.erase_append_right _ hnot, holesOf_cons, holesOf_cons _ _ (.hole kind),
    size_hole, show (Item.instruction i).size = kind.size from hsize]
  simp [holesOf]

/-! ## What one call does -/

/-- An item is added behind the others. -/
theorem items_add (a : Assembler) (item : Item) : (a.add item).items.toList = a.items.toList ++ [item] := Array.toList_push

/-- Filling a hole of any kind is one operation, with the instruction of the filling. -/
theorem Filling.patch_eq {kind : HoleKind} (filling : Filling kind) (a : Assembler) (hole : Hole kind) (target : Nat) :
    filling.patch a hole target = a.fill hole target filling.instruction := by
  cases filling <;> rfl

/-- An address that is written has the displacement of its target. -/
theorem emitAddress_eq_ok {a a' : Assembler} {dest : Reg} {target : UInt64} (h : a.emitAddress dest target = .ok (.ok a')) :
    ∃ d, displacement? (target.toInt64.toInt - (a.offset + 7 : Nat)) = some d ∧ a' = a.emit (.address dest d) := by
  unfold Assembler.emitAddress Assembler.signedDifference at h
  simp only [bind, Except.bind] at h
  split at h
  · cases h
  · rename_i difference hdifference
    split at hdifference
    · cases hdifference
    · obtain rfl := Except.ok.inj hdifference
      have h := Except.ok.inj h
      split at h
      · cases h
      · rename_i d hd
        exact ⟨d, hd, (Except.ok.inj h).symm⟩

/-- What fills a hole takes up its bytes. -/
theorem Filling.size_instruction {kind : HoleKind} (filling : Filling kind) (d : Int32) :
    (filling.instruction d).size = kind.size := by
  cases filling <;> rfl

namespace Bench

variable {b b' b₁ : Bench} {c : Call} {calls : List Call} {result : Except AssemblyError Unit}

/-- What a call does: it writes items behind the others, fills a hole, or leaves the code as it is. -/
inductive Step (b b' : Bench) : Prop where
  | wrote (new : List Item) (items : b'.items = b.items ++ new)
      (unfilled : b'.unfilled = b.unfilled ++ holesOf b.items.length (itemsSize b.items) new)
      (held : b'.held = b.held ∨ b'.held = holesOf b.items.length (itemsSize b.items) new ++ b.held)
      (count : b'.reserved + b.filled = b.reserved + b'.filled + new.countP Item.isHole)
  | filled (kind : HoleKind) (i : Instruction) (before behind : List Item) (size : i.size = kind.size)
      (items : b.items = before ++ .hole kind :: behind) (items' : b'.items = before ++ .instruction i :: behind)
      (unfilled : b'.unfilled = b.unfilled.erase ⟨kind, before.length, itemsSize before⟩)
      (held : b'.held = b.held.erase ⟨kind, before.length, itemsSize before⟩)
      (reserved : b'.reserved = b.reserved) (filled : b'.filled = b.filled + 1)
  | kept (items : b'.items = b.items) (unfilled : b'.unfilled = b.unfilled) (held : b'.held.Sublist b.held)
      (reserved : b'.reserved = b.reserved) (filled : b'.filled = b.filled)

/-- The account of a bench is right: the holes it names are those in the code, the handles that are held are different ones of
them, and the numbers agree. -/
structure Kept (b : Bench) : Prop where
  unfilled : b.unfilled = holesOf 0 0 b.items
  held : ∀ h ∈ b.held, h ∈ b.unfilled
  nodup : b.held.Nodup
  count : b.reserved = b.filled + b.unfilled.length

/-- The offset of a bench is the size of its items. -/
theorem offset_eq (b : Bench) : b.assembler.offset = itemsSize b.items := b.assembler.offset_eq

/-- The bytes of a bench are those of its items. -/
theorem bytes_eq (b : Bench) : b.bytes = b.items.flatMap Item.encode := rfl

/-- There are as many bytes as the items are large. -/
theorem length_bytes (b : Bench) : b.bytes.length = itemsSize b.items := length_flatMap_encode b.items

/-- The handle of a hole that is reserved now. -/
theorem handle_reserve (b : Bench) (kind : HoleKind) :
    (b.assembler.reserve kind).2.handle = ⟨kind, b.items.length, itemsSize b.items⟩ := by
  rw [← offset_eq]
  rfl

/-- Where the account is right, a handle that is held names a hole of the code. -/
theorem Kept.exists_hole (hb : b.Kept) {kind : HoleKind} {hole : Hole kind} (hheld : hole.handle ∈ b.held) :
    ∃ before behind, b.items = before ++ .hole kind :: behind ∧ hole = ⟨before.length, itemsSize before⟩ := by
  obtain ⟨before, behind, hitems, hindex, hoffset⟩ := mem_holesOf_iff.1 (hb.unfilled ▸ hb.held _ hheld)
  rw [Nat.zero_add] at hindex hoffset
  refine ⟨before, behind, hitems, ?_⟩
  cases hole
  cases hindex
  cases hoffset
  rfl

/-- What an attempt to fill a hole comes to: the three cases of the target, and the code behind a hole that is filled. -/
theorem patch_cases {kind : HoleKind} (filling : Filling kind) {a : Assembler} {before behind : List Item}
    (hitems : a.items.toList = before ++ .hole kind :: behind) (target : Nat) :
    (a.offset < target ∧
      filling.patch a ⟨before.length, itemsSize before⟩ target = .error (.outOfBounds (itemsSize before) target)) ∨
    (target ≤ a.offset ∧ ¬InReach target (itemsSize before + kind.size) ∧
      filling.patch a ⟨before.length, itemsSize before⟩ target = .error (.outOfRange (itemsSize before) target)) ∨
    (target ≤ a.offset ∧ InReach target (itemsSize before + kind.size) ∧
      ∃ a', filling.patch a ⟨before.length, itemsSize before⟩ target = .ok a' ∧ a'.items.toList =
        before ++ .instruction (filling.instruction (displacementTo target (itemsSize before + kind.size))) :: behind) := by
  rw [filling.patch_eq]
  by_cases htarget : target ≤ a.offset
  · by_cases hreach : InReach target (itemsSize before + kind.size)
    · exact Or.inr (Or.inr ⟨htarget, hreach, fill_of_inReach hitems filling.size_instruction htarget hreach⟩)
    · exact Or.inr (Or.inl ⟨htarget, hreach, fill_of_not_inReach htarget hreach⟩)
  · have hlt := Nat.lt_of_not_le htarget
    exact Or.inl ⟨hlt, if_pos hlt⟩

/-- A hole that is reserved has a handle that was not in use. -/
theorem notMem_unfilled_reserve (hb : b.Kept) (kind : HoleKind) : (b.assembler.reserve kind).2.handle ∉ b.unfilled := by
  intro hmem
  rw [hb.unfilled, handle_reserve] at hmem
  have : b.items.length < 0 + b.items.length := (le_index_of_mem_holesOf hmem).2
  omega

/-- A jump back is a jump reserved and filled at once. -/
theorem make_jumpBack (hb : b.Kept) (target : Nat) :
    b.make (.jumpBack target) =
      (b.make (.reserve .jump)).bind fun p => p.1.make (.patch (b.assembler.reserve .jump).2 target .jump) := by
  have hnot := notMem_unfilled_reserve hb .jump
  simp only [make, withHole, Option.bind_some, List.mem_cons, true_or, if_true, List.erase_cons_head, Filling.patch,
    Assembler.jumpBack]
  cases (b.assembler.reserve .jump).1.patchJump (b.assembler.reserve .jump).2 target with
  | error e => rfl
  | ok a =>
    simp only [attempt]
    rw [List.erase_append_right _ hnot]
    simp

/-- Code written behind the rest, without a hole. -/
theorem step_wrote {a : Assembler} (new : List Item) (hnew : ∀ item ∈ new, item.isHole = false)
    (hitems : a.items.toList = b.items ++ new) : b.Step { b with assembler := a } := by
  refine .wrote new hitems ?_ (Or.inl rfl) ?_
  · rw [holesOf_eq_nil hnew, List.append_nil]
  · rw [← length_holesOf 0 0, holesOf_eq_nil hnew]
    rfl

/-- A hole reserved, whoever holds its handle. -/
theorem step_reserved (b : Bench) (kind : HoleKind) (held : List Handle)
    (hheld : held = b.held ∨ held = (b.assembler.reserve kind).2.handle :: b.held) :
    b.Step { b.withHole kind with held := held } := by
  refine .wrote [.hole kind] ?_ ?_ ?_ ?_
  · exact items_add b.assembler _
  · exact congrArg (b.unfilled ++ [·]) (handle_reserve b kind)
  · rw [handle_reserve] at hheld
    exact hheld
  · show b.reserved + 1 + b.filled = b.reserved + b.filled + 1
    omega

/-- What a call that fills a hole does. -/
theorem step_patch (hb : b.Kept) {kind : HoleKind} {hole : Hole kind} {target : Nat} {filling : Filling kind}
    (h : b.make (.patch hole target filling) = some (b', result)) : b.Step b' := by
  simp only [make] at h
  split at h
  · rename_i hheld
    obtain ⟨before, behind, hitems, rfl⟩ := hb.exists_hole hheld
    rcases patch_cases filling hitems target with ⟨-, herror⟩ | ⟨-, -, herror⟩ | ⟨-, -, a, hok, hafter⟩
    · rw [herror] at h
      obtain ⟨rfl, -⟩ := Prod.mk.inj (Option.some.inj h)
      exact .kept rfl rfl List.erase_sublist rfl rfl
    · rw [herror] at h
      obtain ⟨rfl, -⟩ := Prod.mk.inj (Option.some.inj h)
      exact .kept rfl rfl List.erase_sublist rfl rfl
    · rw [hok] at h
      obtain ⟨rfl, -⟩ := Prod.mk.inj (Option.some.inj h)
      exact .filled kind _ before behind (filling.size_instruction _) hitems hafter rfl rfl rfl rfl
  · cases h

/-- The account is kept by every step. -/
theorem Step.kept_of (h : b.Step b') (hb : b.Kept) : b'.Kept := by
  have hnodup : b.unfilled.Nodup := hb.unfilled ▸ nodup_holesOf 0 0 b.items
  cases h with
  | wrote new items unfilled held count =>
    -- new holes lie behind all that is held
    have hnew : ∀ h ∈ holesOf b.items.length (itemsSize b.items) new, h ∉ b.held := by
      intro h hmem hheld
      have hold := le_index_of_mem_holesOf (hb.unfilled ▸ hb.held h hheld)
      have := (le_index_of_mem_holesOf hmem).1
      omega
    constructor
    case unfilled => rw [unfilled, hb.unfilled, items, holesOf_append, Nat.zero_add, Nat.zero_add]
    case held =>
      intro h hh
      rw [unfilled, List.mem_append]
      rcases held with held | held <;> rw [held] at hh
      · exact Or.inl (hb.held h hh)
      · exact (List.mem_append.1 hh).symm.imp (hb.held h) id
    case nodup =>
      rcases held with held | held <;> rw [held]
      · exact hb.nodup
      · exact List.nodup_append'.2 ⟨nodup_holesOf _ _ _, hb.nodup, hnew⟩
    case count =>
      have := hb.count
      rw [unfilled, List.length_append, length_holesOf]
      omega
  | filled kind i before behind size items items' unfilled held reserved filled =>
    have hmem : ⟨kind, before.length, itemsSize before⟩ ∈ b.unfilled := by
      rw [hb.unfilled, items, mem_holesOf_iff]
      exact ⟨before, behind, rfl, (Nat.zero_add _).symm, (Nat.zero_add _).symm⟩
    constructor
    case unfilled =>
      have := holesOf_fill size 0 0 before behind
      rw [Nat.zero_add, Nat.zero_add] at this
      rw [unfilled, hb.unfilled, items, items', this]
    case held =>
      intro h hh
      rw [held, hb.nodup.mem_erase_iff] at hh
      rw [unfilled, hnodup.mem_erase_iff]
      exact ⟨hh.1, hb.held h hh.2⟩
    case nodup => exact held ▸ hb.nodup.erase _
    case count =>
      have := hb.count
      have := List.length_pos_of_mem hmem
      rw [unfilled, List.length_erase_of_mem hmem]
      omega
  | kept items unfilled held reserved filled =>
    exact ⟨by rw [unfilled, items, hb.unfilled], fun h hh => unfilled ▸ hb.held h (held.subset hh), hb.nodup.sublist held,
      by rw [reserved, filled, unfilled, hb.count]⟩

/-- A call is made of steps, a jump back of two. -/
theorem steps_of_make (hb : b.Kept) (h : b.make c = some (b', result)) : Relation.ReflTransGen Step b b' := by
  cases c with
  | emit emission =>
    obtain ⟨rfl, -⟩ := Prod.mk.inj (Option.some.inj h)
    exact .single (step_wrote _ (by simp [Item.isHole]) (items_emitAll b.assembler emission.sequence))
  | address dest target =>
    simp only [make] at h
    split at h
    · cases h
    · obtain ⟨rfl, -⟩ := Prod.mk.inj (Option.some.inj h)
      exact .refl
    · rename_i a ha
      obtain ⟨rfl, -⟩ := Prod.mk.inj (Option.some.inj h)
      obtain ⟨d, -, rfl⟩ := emitAddress_eq_ok ha
      exact .single (step_wrote [_] (by simp [Item.isHole]) (items_add b.assembler _))
  | storeSlot slot source => cases h
  | loadSlot dest slot => cases h
  | embed bytes =>
    obtain ⟨rfl, -⟩ := Prod.mk.inj (Option.some.inj h)
    exact .single (step_wrote [.data bytes] (by simp [Item.isHole]) (items_add b.assembler _))
  | reserve kind =>
    obtain ⟨rfl, -⟩ := Prod.mk.inj (Option.some.inj h)
    exact .single (step_reserved b kind _ (Or.inr rfl))
  | patch hole target filling => exact .single (step_patch hb h)
  | jumpBack target =>
    rw [make_jumpBack hb] at h
    have hreserved := step_reserved b .jump _ (Or.inr rfl)
    exact .tail (.single hreserved) (step_patch (hreserved.kept_of hb) h)

/-- What a step keeps, any number of steps keep. -/
theorem kept_of_steps (h : Relation.ReflTransGen Step b b') (hb : b.Kept) : b'.Kept := by
  induction h with
  | refl => exact hb
  | tail _ hstep ih => exact hstep.kept_of ih

/-- Calls one after another are made of steps. -/
theorem steps_of_run (hb : b.Kept) (h : b.run calls = some b') : Relation.ReflTransGen Step b b' := by
  induction calls generalizing b with
  | nil =>
    obtain rfl := Option.some.inj h
    exact .refl
  | cons c rest ih =>
    obtain ⟨⟨b₁, result⟩, hmake, hrest⟩ := Option.bind_eq_some_iff.1 h
    have hsteps := steps_of_make hb hmake
    exact hsteps.trans (ih (kept_of_steps hsteps hb) hrest)

/-- The account is right before the first call. -/
theorem kept_start : start.Kept := ⟨rfl, nofun, List.nodup_nil, rfl⟩

/-- The account is right whatever calls were made. -/
theorem kept_of_run (h : start.run calls = some b) : b.Kept := kept_of_steps (steps_of_run kept_start h) kept_start

end Bench

end RegisterCompiler.X64
