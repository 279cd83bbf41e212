import Mathlib
import RegisterCompiler.Proofs.Positions.Unplaced
import RegisterCompiler.Proofs.Session.Written

/-!
# Sessions behind other sessions

`base.extendedBy u` is the session `base` with all that the session `u` has left put behind it: its code, its open jumps and calls,
and the procedures that it began. A hole is found behind the items of `base`, and an offset is counted from the end of its code.
Writing, filling a hole and setting a register to an address are done behind `base` as they are done in `u` alone, and what is refused
there is refused here, with the offsets of the error behind `base` too (`fill_append`, `address_append`).
-/

namespace RegisterCompiler

namespace X64

/-- The number of bytes that a buffer has room for. Its offsets are 64-bit numbers, and as signed ones they are not negative. -/
def capacity : Nat := 2 ^ 63 - 1

/-- An error of the assembler behind some bytes. -/
def AssemblyError.shifted (n : Nat) : AssemblyError → AssemblyError
  | outOfRange start target => outOfRange (n + start) (n + target)
  | outOfBounds start target => outOfBounds (n + start) (n + target)
  | unfilled count => unfilled count
  | slotsBorrowed => slotsBorrowed

/-- A stretch of bytes behind some bytes. -/
def ByteRange.shifted (n : Nat) (r : ByteRange) : ByteRange := ⟨n + r.start, n + r.stop⟩

/-- A hole behind some code. -/
def Hole.behind {kind : HoleKind} (a : Assembler) (hole : Hole kind) : Hole kind :=
  ⟨a.items.size + hole.index, a.offset + hole.offset⟩

/-! ## Code behind other code -/

/-- What is changed behind a list is changed in what stands behind it. -/
theorem modify_append {α : Type} (front back : List α) (i : Nat) (f : α → α) :
    (front ++ back).modify (front.length + i) f = front ++ back.modify i f := by
  induction front with
  | nil => simp
  | cons x front ih => simpa [Nat.succ_add] using ih

/-- The stretches of data are found item by item. -/
theorem dataRanges_append (n : Nat) (front back : List Item) :
    dataRanges n (front ++ back) = dataRanges n front ++ dataRanges (n + itemsSize front) back := by
  induction front generalizing n with
  | nil => rfl
  | cons item front ih =>
    have hsize : n + itemsSize (item :: front) = n + item.size + itemsSize front := by
      rw [itemsSize, Nat.add_assoc]
    rw [hsize]
    cases item with
    | data bytes => exact congrArg (_ :: ·) (ih _)
    | instruction i => exact ih _
    | hole kind => exact ih _

/-- Where items stand makes no difference to the stretches of data among them, but for where these are. -/
theorem dataRanges_add (n m : Nat) (items : List Item) :
    dataRanges (n + m) items = (dataRanges m items).map (ByteRange.shifted n) := by
  induction items generalizing m with
  | nil => rfl
  | cons item items ih =>
    cases item with
    | data bytes =>
      rw [dataRanges, dataRanges, Nat.add_assoc, ih]
      rfl
    | instruction i =>
      rw [dataRanges, dataRanges, Nat.add_assoc, ih] <;> simp
    | hole kind =>
      rw [dataRanges, dataRanges, Nat.add_assoc, ih] <;> simp

namespace Assembler

/-- Code with the same items is the same. -/
theorem ext {a b : Assembler} (h : a.items = b.items) : a = b := by
  obtain ⟨items, offset, hoffset⟩ := a
  obtain ⟨items', offset', hoffset'⟩ := b
  obtain rfl : items = items' := h
  obtain rfl : offset = offset' := hoffset.trans hoffset'.symm
  rfl

/-- Code behind other code. -/
def append (a b : Assembler) : Assembler := ⟨a.items ++ b.items, a.offset + b.offset, by simp [a.offset_eq, b.offset_eq]⟩

variable (a b : Assembler)

/-- The offset behind two parts of code is the sum of theirs. -/
@[simp] theorem offset_append : (a.append b).offset = a.offset + b.offset := rfl

/-- Nothing behind code is the code. -/
@[simp] theorem append_empty : a.append empty = a := ext (by simp [append, empty])

/-- An item is added to the part behind. -/
theorem add_append (item : Item) : (a.append b).add item = a.append (b.add item) := ext (by simp [append, add])

/-- A sequence is emitted into the part behind. -/
theorem emitAll_append (sequence : Sequence) : (a.append b).emitAll sequence = a.append (b.emitAll sequence) := by
  unfold emitAll
  induction sequence generalizing b with
  | nil => rfl
  | cons i rest ih =>
    have hemit : (a.append b).emit i = a.append (b.emit i) := add_append a b (.instruction i)
    rw [List.foldl_cons, List.foldl_cons, hemit, ih]

/-- Emitting does not go back. -/
theorem offset_le_emitAll (sequence : Sequence) : a.offset ≤ (a.emitAll sequence).offset := by
  rw [offset_eq, offset_eq, items_emitAll, itemsSize_append]
  exact Nat.le_add_right _ _

/-- Bytes are embedded in the part behind, at offsets behind the part before. -/
theorem embed_append (bytes : List UInt8) : (a.append b).embed bytes =
    (a.append (b.embed bytes).1, (b.embed bytes).2.shifted a.offset) := by
  rw [embed, embed, add_append, ByteRange.shifted, ← Nat.add_assoc]
  rfl

/-- A hole is reserved in the part behind, and is a hole behind the part before. -/
theorem reserve_append (kind : HoleKind) : (a.append b).reserve kind =
    (a.append (b.reserve kind).1, (b.reserve kind).2.behind a) := by
  rw [reserve, reserve, add_append, Hole.behind, ← Array.size_append]
  rfl

/-- The bytes of two parts of code are those of the one and of the other. -/
theorem bytes_append : (a.append b).bytes = a.bytes ++ b.bytes := by simp [bytes, append]

/-- The embedded bytes of two parts are those of the one, and those of the other behind it. -/
theorem data_append : (a.append b).data = a.data ++ b.data.map (ByteRange.shifted a.offset) := by
  rw [data, append, Array.toList_append, dataRanges_append, Nat.zero_add, ← a.offset_eq]
  exact congrArg _ (dataRanges_add a.offset 0 _)

/-- Filling a hole moves nothing. -/
theorem offset_of_fill {a a' : Assembler} {kind : HoleKind} {hole : Hole kind} {target : Nat} {instruction : Int32 → Instruction}
    (h : a.fill hole target instruction = .ok a') : a'.offset = a.offset := by
  unfold fill at h
  split at h
  · cases h
  · split at h
    · cases h
    · obtain rfl := Except.ok.inj h
      rfl

/-- A displacement does not hang on what is in front of both of its ends. -/
theorem displacement?_add (n target stop : Nat) :
    displacement? (((n + target : Nat) : Int) - ((n + stop : Nat) : Int)) = displacement? ((target : Int) - stop) := by
  congr 1
  omega

/-- A hole is filled behind other code as it is filled in its own. -/
theorem fill_append {kind : HoleKind} (hole : Hole kind) (target : Nat) (instruction : Int32 → Instruction) :
    (a.append b).fill (hole.behind a) (a.offset + target) instruction =
      mapOutcome a.append (AssemblyError.shifted a.offset) (b.fill hole target instruction) := by
  have hdisplacement : displacement? (((a.offset + target : Nat) : Int) - (((hole.behind a).offset + kind.size : Nat) : Int)) =
      displacement? ((target : Int) - (hole.offset + kind.size : Nat)) := by
    rw [Hole.behind, Nat.add_assoc]
    exact displacement?_add _ _ _
  unfold fill
  by_cases hout : b.offset < target
  · have hout' : (a.append b).offset < a.offset + target := Nat.add_lt_add_left hout a.offset
    rw [if_pos hout, if_pos hout']
    rfl
  · have hout' : ¬(a.append b).offset < a.offset + target := fun h => hout (Nat.lt_of_add_lt_add_left h)
    rw [if_neg hout, if_neg hout', hdisplacement]
    cases displacement? ((target : Int) - (hole.offset + kind.size : Nat)) with
    | none => rfl
    | some d =>
      refine congrArg Except.ok (ext (Array.ext' ?_))
      simpa [append, Hole.behind] using modify_append a.items.toList b.items.toList hole.index _

/-- The code that sets a register to the address of an offset has the displacement to it, or there is none. -/
theorem address_eq (dest : Reg) {target : Nat} (h : target ≤ capacity) :
    (match a.emitAddress dest (UInt64.ofNat target) with
      | .ok result => result
      | .error _ => .error (.outOfRange a.offset target)) =
    match displacement? ((target : Int) - (a.offset + 7 : Nat)) with
      | none => .error (.outOfRange a.offset target)
      | some d => .ok (a.emit (.address dest d)) := by
  have hmin : Int64.minValue.toInt = -9223372036854775808 := by decide
  have hmin32 : Int32.minValue.toInt = -2147483648 := by decide
  unfold capacity at h
  have htarget : (UInt64.ofNat target).toNat = target := by
    rw [UInt64.toNat_ofNat']
    omega
  unfold emitAddress signedDifference
  rw [toInt64_ofNat (by omega), hmin]
  by_cases hlow : (target : Int) - (a.offset + 7 : Nat) < -9223372036854775808
  · have hnone : displacement? ((target : Int) - (a.offset + 7 : Nat)) = none := if_neg (by rw [hmin32]; omega)
    rw [if_pos hlow, hnone]
    rfl
  · rw [if_neg hlow]
    simp only [bind, Except.bind, pure, Except.pure]
    cases displacement? ((target : Int) - (a.offset + 7 : Nat)) with
    | none => simp only [htarget]
    | some d => rfl

/-- A register is set to an address behind other code as in the code itself. -/
theorem address_append (dest : Reg) {target : Nat} (h : a.offset + target ≤ capacity) :
    (match (a.append b).emitAddress dest (UInt64.ofNat (a.offset + target)) with
      | .ok result => result
      | .error _ => .error (.outOfRange (a.append b).offset (a.offset + target))) =
    mapOutcome a.append (AssemblyError.shifted a.offset)
      (match b.emitAddress dest (UInt64.ofNat target) with
        | .ok result => result
        | .error _ => .error (.outOfRange b.offset target)) := by
  rw [address_eq _ dest h, address_eq b dest (Nat.le_trans (Nat.le_add_left _ _) h), offset_append, Nat.add_assoc,
    displacement?_add]
  cases displacement? ((target : Int) - (b.offset + 7 : Nat)) with
  | none => rfl
  | some d => exact congrArg Except.ok (add_append a b (.instruction (.address dest d)))

end Assembler

end X64

open X64 (Assembler ByteRange Hole)

/-! ## Sessions behind other sessions -/

/-- A fault behind some bytes of code. -/
def CompileFault.shifted (n : Nat) : CompileFault → CompileFault
  | assembly e => assembly (e.shifted n)
  | fault => fault

/-- A compile error behind some bytes of code; where it is in the source does not change. -/
def CompileError.shifted (n : Nat) (e : CompileError) : CompileError := { e with fault := e.fault.shifted n }

/-- Errors of the source know of no offset. -/
theorem CompileError.OfSource.shifted {e : CompileError} (h : e.OfSource) (n : Nat) : e.shifted n = e := by
  obtain ⟨fault, position⟩ := e
  cases fault with
  | assembly a => exact absurd rfl (h a)
  | _ => rfl

/-- Placing an error and shifting it do not get in each other's way. -/
theorem CompileError.placedAt_shifted (e : CompileError) (n : Nat) (position : Position) :
    (e.shifted n).placedAt position = (e.placedAt position).shifted n := by
  obtain ⟨fault, place⟩ := e
  cases fault with
  | assembly a =>
    show (if place = .unknown then _ else _) = CompileError.shifted n (if place = .unknown then _ else _)
    split <;> rfl
  | _ => rfl

/-- A loop context behind some code. -/
def LoopContext.behind (a : Assembler) (c : LoopContext) : LoopContext :=
  ⟨c.breaks.map (Prod.map (Hole.behind a) id), c.continues.map (Prod.map (Hole.behind a) id)⟩

/-- A stray jump is chosen by its place in the source. -/
theorem LoopContext.firstStray_behind (a : Assembler) (c : LoopContext) : (c.behind a).firstStray? = c.firstStray? := by
  have hjumps : ((c.behind a).breaks ++ (c.behind a).continues).map Prod.snd = (c.breaks ++ c.continues).map Prod.snd := by
    simp [behind, Function.comp_def]
  rw [firstStray?, firstStray?, hjumps]

namespace Session

/-- A session with what another one has left put behind it. -/
def extendedBy (base u : Session) : Session where
  assembler := base.assembler.append u.assembler
  intrinsics := u.intrinsics
  loops := u.loops.map (LoopContext.behind base.assembler) ++ base.loops
  calls := base.calls ++ u.calls.map (Prod.map (Hole.behind base.assembler) id)
  procedures := base.procedures ++ u.procedures.map (Prod.map id (base.offset + ·))

variable (base u : Session)

/-- A new session puts nothing behind another one. -/
theorem extendedBy_start : base.extendedBy (start base.intrinsics) = base := by
  simp [extendedBy, start]

/-- A context opened in a session is opened behind another one. -/
theorem extendedBy_openContext :
    base.extendedBy { u with loops := {} :: u.loops } =
      { base.extendedBy u with loops := {} :: (base.extendedBy u).loops } := rfl

/-- A call noted in a session is noted behind another one. -/
theorem extendedBy_noteCall (hole : Hole .call) (name : String) :
    base.extendedBy { u with calls := u.calls ++ [(hole, name)] } =
      { base.extendedBy u with calls := (base.extendedBy u).calls ++ [(hole.behind base.assembler, name)] } := by
  simp [extendedBy]

/-- A procedure recorded in a session is recorded behind another one. -/
theorem extendedBy_recordProcedure (name : String) (start : Nat) :
    base.extendedBy { u with procedures := u.procedures ++ [(name, start)] } =
      { base.extendedBy u with procedures := (base.extendedBy u).procedures ++ [(name, base.offset + start)] } := by
  simp [extendedBy]

end Session

end RegisterCompiler
