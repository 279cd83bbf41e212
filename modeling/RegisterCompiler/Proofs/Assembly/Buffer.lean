import RegisterCompiler.Proofs.Assembly.Bench
import RegisterCompiler.Proofs.Decoding

/-!
# The law of the buffer

Whatever calls are made of an assembler, its bytes only grow, and a byte that is written stays as it is unless a hole that is
still open covers it (`Bench.Extends`). Filling a hole rewrites exactly the bytes of the hole, to an instruction that leads to the
target; a refused target changes nothing. The number of open holes is that of the holes reserved less that of the holes filled, so
code can be finished exactly if every hole was filled (`Bench.lawful_of_run`).
-/

namespace RegisterCompiler.X64

/-- The bytes with others written over them from an offset on. -/
def overwrite (bytes : List UInt8) (offset : Nat) (new : List UInt8) : List UInt8 :=
  bytes.take offset ++ new ++ bytes.drop (offset + new.length)

/-- The holes of items lie one behind the other, inside the items. -/
theorem holesOf_apart (index offset : Nat) (items : List Item) :
    (holesOf index offset items).Pairwise (fun h h' => h.offset + h.kind.size ≤ h'.offset) ∧
      ∀ h ∈ holesOf index offset items, offset ≤ h.offset ∧ h.offset + h.kind.size ≤ offset + itemsSize items := by
  induction items generalizing index offset with
  | nil => exact ⟨List.Pairwise.nil, nofun⟩
  | cons item rest ih =>
    obtain ⟨hapart, hinside⟩ := ih (index + 1) (offset + item.size)
    rw [holesOf_cons]
    cases item with
    | hole kind =>
      rw [size_hole] at hapart hinside
      rw [itemsSize, size_hole]
      refine ⟨List.pairwise_cons.2 ⟨fun h hh => (hinside h hh).1, hapart⟩, fun h hh => ?_⟩
      rcases List.mem_cons.1 hh with rfl | hh
      · exact ⟨Nat.le_refl _, Nat.add_le_add_left (Nat.le_add_right _ _) offset⟩
      · have := hinside h hh
        omega
    | instruction i =>
      refine ⟨hapart, fun h hh => ?_⟩
      have := hinside h hh
      rw [itemsSize]
      omega
    | data bytes =>
      refine ⟨hapart, fun h hh => ?_⟩
      have := hinside h hh
      rw [itemsSize]
      omega

namespace Bench

variable {b b' b'' : Bench} {calls : List Call}

/-! ## Bytes that stay -/

/-- A bench has gone on to another one: its bytes are still there, up to those of the holes that were open, and holes have
been reserved only behind them. -/
structure Extends (b b' : Bench) : Prop where
  length_le : b.bytes.length ≤ b'.bytes.length
  getElem? : ∀ i < b.bytes.length, (∀ h ∈ b.unfilled, ¬h.Covers i) → b'.bytes[i]? = b.bytes[i]?
  unfilled : ∀ h ∈ b'.unfilled, h ∈ b.unfilled ∨ b.bytes.length ≤ h.offset

/-- A bench extends itself. -/
theorem Extends.refl (b : Bench) : b.Extends b := ⟨Nat.le_refl _, fun _ _ _ => rfl, fun _ hh => Or.inl hh⟩

/-- What extends an extension extends the first bench. -/
theorem Extends.trans (h : b.Extends b') (h' : b'.Extends b'') : b.Extends b'' := by
  have hlength := h.length_le
  refine ⟨hlength.trans h'.length_le, fun i hi hopen => ?_, fun hole hhole => ?_⟩
  · rw [h'.getElem? i (Nat.lt_of_lt_of_le hi hlength), h.getElem? i hi hopen]
    intro hole hhole hcovers
    rcases h.unfilled hole hhole with hhole | hbehind
    · exact hopen hole hhole hcovers
    · have := hcovers.1
      omega
  · rcases h'.unfilled hole hhole with hhole | hbehind
    · exact h.unfilled hole hhole
    · exact Or.inr (hlength.trans hbehind)

/-- Filling a hole among items overwrites its bytes. -/
theorem flatMap_fill {kind : HoleKind} {i : Instruction} (hsize : i.size = kind.size) (before behind : List Item) :
    (before ++ .instruction i :: behind).flatMap Item.encode =
      overwrite ((before ++ .hole kind :: behind).flatMap Item.encode) (itemsSize before) i.encode := by
  have hlength : (Item.hole kind).encode.length = i.encode.length := by
    rw [show i.encode.length = i.size from rfl, hsize]
    exact size_hole kind
  simp only [overwrite, List.flatMap_append, List.flatMap_cons]
  rw [← length_flatMap_encode before, List.take_left, ← List.drop_drop, List.drop_left, ← hlength, List.drop_left]
  simp [Item.encode]

/-- What is written over a stretch of bytes does not show outside it. -/
theorem getElem?_overwrite_of_outside {bytes new : List UInt8} {offset i : Nat} (hinside : offset + new.length ≤ bytes.length)
    (hi : ¬(offset ≤ i ∧ i < offset + new.length)) : (overwrite bytes offset new)[i]? = bytes[i]? := by
  have htake : (bytes.take offset).length = offset := by
    rw [List.length_take]
    omega
  unfold overwrite
  rcases Nat.lt_or_ge i offset with hlt | hge
  · rw [List.append_assoc, List.getElem?_append_left (by omega), List.getElem?_take_of_lt hlt]
  · have hbehind : (bytes.take offset ++ new).length ≤ i := by
      rw [List.length_append, htake]
      omega
    rw [List.getElem?_append_right hbehind, List.getElem?_drop, List.length_append, htake]
    congr 1
    omega

/-- Overwriting inside a buffer does not change its length. -/
theorem length_overwrite {bytes new : List UInt8} {offset : Nat} (hinside : offset + new.length ≤ bytes.length) :
    (overwrite bytes offset new).length = bytes.length := by
  simp only [overwrite, List.length_append, List.length_take, List.length_drop]
  omega

/-- A step only adds bytes and overwrites open holes. -/
theorem Step.extends (h : b.Step b') (hb : b.Kept) : b.Extends b' := by
  cases h with
  | wrote new items unfilled held count =>
    have hbytes : b'.bytes = b.bytes ++ new.flatMap Item.encode := by
      rw [bytes_eq, items, List.flatMap_append, bytes_eq]
    refine ⟨by rw [hbytes, List.length_append]; omega, fun i hi _ => ?_, fun h hh => ?_⟩
    · rw [hbytes, List.getElem?_append_left hi]
    · rw [unfilled, List.mem_append] at hh
      refine hh.imp id fun hh => ?_
      rw [length_bytes]
      exact ((holesOf_apart _ _ _).2 h hh).1
  | filled kind i before behind size items items' unfilled held reserved filled =>
    have hinside : itemsSize before + i.encode.length ≤ b.bytes.length := by
      rw [show i.encode.length = i.size from rfl, size, length_bytes, items, itemsSize_append, itemsSize, size_hole]
      omega
    have hbytes : b'.bytes = overwrite b.bytes (itemsSize before) i.encode := by
      rw [bytes_eq, bytes_eq, items, items', flatMap_fill size]
    have hmem : ⟨kind, before.length, itemsSize before⟩ ∈ b.unfilled := by
      rw [hb.unfilled, items, mem_holesOf_iff]
      exact ⟨before, behind, rfl, (Nat.zero_add _).symm, (Nat.zero_add _).symm⟩
    refine ⟨by rw [hbytes, length_overwrite hinside], fun j _ hopen => ?_, fun h hh => ?_⟩
    · rw [hbytes]
      refine getElem?_overwrite_of_outside hinside fun hj => hopen _ hmem ?_
      rwa [show i.encode.length = kind.size from size] at hj
    · rw [unfilled] at hh
      exact Or.inl (List.mem_of_mem_erase hh)
  | kept items unfilled held reserved filled =>
    have hbytes : b'.bytes = b.bytes := by rw [bytes_eq, items, bytes_eq]
    exact ⟨by rw [hbytes], fun i _ _ => by rw [hbytes], fun h hh => Or.inl (unfilled ▸ hh)⟩

/-- So do any number of steps. -/
theorem extends_of_steps (h : Relation.ReflTransGen Step b b') (hb : b.Kept) : b.Extends b' := by
  induction h with
  | refl => exact .refl b
  | tail hsteps hstep ih => exact ih.trans (hstep.extends (kept_of_steps hsteps hb))

/-! ## Filling a hole -/

/-- What a call that fills a hole has to do: refuse a target behind the code, then one that is out of reach, and otherwise rewrite
the bytes of the hole, and no others, to an instruction that leads exactly to the target. -/
structure Fills (b : Bench) {kind : HoleKind} (hole : Hole kind) (target : Nat) (filling : Filling kind) (b' : Bench)
    (result : Except AssemblyError Unit) : Prop where
  outOfBounds : result = .error (.outOfBounds hole.offset target) ↔ b.bytes.length < target
  outOfRange : result = .error (.outOfRange hole.offset target) ↔
    target ≤ b.bytes.length ∧ ¬InReach target (hole.offset + kind.size)
  accepted : result = .ok () ↔ target ≤ b.bytes.length ∧ InReach target (hole.offset + kind.size)
  refused : result ≠ .ok () → b'.bytes = b.bytes ∧ b'.assembler.pending = b.assembler.pending
  rewritten : result = .ok () → ∃ d : Int32, ((hole.offset + kind.size : Nat) : Int) + d.toInt = target ∧
    b'.bytes = overwrite b.bytes hole.offset (filling.instruction d).encode ∧
    decode (b'.bytes.drop hole.offset) = .ok (filling.instruction d, kind.size) ∧
    b'.assembler.pending + 1 = b.assembler.pending

/-- The holes that an assembler counts as pending are those among its items. -/
theorem pending_eq (b : Bench) : b.assembler.pending = b.items.countP Item.isHole := rfl

/-- A handle that is held can be used. -/
theorem exists_fills (hb : b.Kept) {kind : HoleKind} {hole : Hole kind} (hheld : hole.handle ∈ b.held) (target : Nat)
    (filling : Filling kind) :
    ∃ b' result, b.make (.patch hole target filling) = some (b', result) ∧ b.Fills hole target filling b' result := by
  obtain ⟨before, behind, hitems, rfl⟩ := hb.exists_hole hheld
  have hlength : b.assembler.offset = b.bytes.length := by rw [offset_eq, length_bytes]
  refine ⟨_, _, if_pos hheld, ?_⟩
  rcases patch_cases filling hitems target with ⟨hlt, herror⟩ | ⟨hle, hreach, herror⟩ | ⟨hle, hreach, a, hok, hafter⟩
  · rw [herror]
    rw [hlength] at hlt
    exact ⟨iff_of_true rfl hlt, iff_of_false nofun fun h => Nat.not_lt.2 h.1 hlt,
      iff_of_false nofun fun h => Nat.not_lt.2 h.1 hlt, fun _ => ⟨rfl, rfl⟩, nofun⟩
  · rw [herror]
    rw [hlength] at hle
    exact ⟨iff_of_false nofun (Nat.not_lt.2 hle), iff_of_true rfl ⟨hle, hreach⟩, iff_of_false nofun fun h => hreach h.2,
      fun _ => ⟨rfl, rfl⟩, nofun⟩
  · rw [hok]
    rw [hlength] at hle
    refine ⟨iff_of_false nofun (Nat.not_lt.2 hle), iff_of_false nofun fun h => h.2 hreach, iff_of_true rfl ⟨hle, hreach⟩,
      fun h => absurd rfl h, fun _ => ⟨_, toInt_displacementTo hreach, ?_, ?_, ?_⟩⟩
    · show a.items.toList.flatMap Item.encode = _
      rw [hafter, bytes_eq, hitems]
      exact flatMap_fill (filling.size_instruction _) before behind
    · show decode ((a.items.toList.flatMap Item.encode).drop (itemsSize before)) = _
      rw [hafter, List.flatMap_append, ← length_flatMap_encode before, List.drop_left, List.flatMap_cons]
      exact (decode_encode_append _ _).trans (by rw [filling.size_instruction])
    · show a.items.toList.countP Item.isHole + 1 = _
      rw [hafter, pending_eq, hitems]
      simp [List.countP_append, List.countP_cons, Item.isHole, Nat.add_assoc]

/-! ## The law -/

/-- What holds of a bench whatever calls were made of it, and whatever calls are made next. -/
structure Lawful (b : Bench) : Prop where
  /-- The open holes lie in the buffer, one behind the other. -/
  placed : ∀ h ∈ b.unfilled, h.offset + h.kind.size ≤ b.bytes.length
  apart : b.unfilled.Pairwise fun h h' => h.offset + h.kind.size ≤ h'.offset
  /-- A handle that is held is that of an open hole. -/
  held : ∀ h ∈ b.held, h ∈ b.unfilled
  /-- Open holes are those reserved less those filled. -/
  pending : b.assembler.pending + b.filled = b.reserved
  /-- Code is finished exactly if every hole was filled; otherwise the number of those that were not is reported. -/
  finish : b.assembler.finish = if b.filled = b.reserved then .ok ⟨b.bytes, b.assembler.data⟩
    else .error (.unfilled (b.reserved - b.filled))
  /-- The buffer never shrinks, and only bytes of open holes ever change. -/
  stable : ∀ calls b', b.run calls = some b' → b.bytes.length ≤ b'.bytes.length ∧
    ∀ i < b.bytes.length, (∀ h ∈ b.unfilled, ¬h.Covers i) → b'.bytes[i]? = b.bytes[i]?
  patch : ∀ {kind : HoleKind} (hole : Hole kind) target filling, hole.handle ∈ b.held →
    ∃ b' result, b.make (.patch hole target filling) = some (b', result) ∧ b.Fills hole target filling b' result
  /-- A jump back is a jump reserved and filled at once. -/
  jumpBack : ∀ target, b.make (.jumpBack target) =
    (b.make (.reserve .jump)).bind fun p => p.1.make (.patch (b.assembler.reserve .jump).2 target .jump)

/-- The law of the buffer holds of an assembler behind any calls, in any order, in which each handle is used at most once. -/
theorem lawful_of_run (h : start.run calls = some b) : b.Lawful := by
  have hb := kept_of_run h
  have hapart := holesOf_apart 0 0 b.items
  have hpending : b.assembler.pending + b.filled = b.reserved := by
    rw [pending_eq, ← length_holesOf 0 0, ← hb.unfilled, hb.count, Nat.add_comm]
  rw [← hb.unfilled] at hapart
  constructor
  case placed =>
    intro h hh
    rw [length_bytes, ← Nat.zero_add (itemsSize b.items)]
    exact (hapart.2 h hh).2
  case apart => exact hapart.1
  case held => exact hb.held
  case pending => exact hpending
  case finish =>
    unfold Assembler.finish
    by_cases hfilled : b.filled = b.reserved
    · rw [if_pos (by omega), if_pos hfilled]
      rfl
    · rw [if_neg (by omega), if_neg hfilled, show b.assembler.pending = b.reserved - b.filled by omega]
  case stable =>
    intro calls' b' hrun
    have hextends := extends_of_steps (steps_of_run hb hrun) hb
    exact ⟨hextends.length_le, hextends.getElem?⟩
  case patch => exact fun hole target filling hheld => exists_fills hb hheld target filling
  case jumpBack => exact make_jumpBack hb

/-- Calls that reserve a call and a branch, fill the branch with a target inside the code and the call with one behind it, which
is refused, and jump back. -/
def sampleCalls : List Call := [
  .reserve .call,
  .reserve .branch,
  .emit (.aluImmediate .add .rsp (-8)),
  .patch ⟨1, 5⟩ 11 (.branch .less true),
  .patch ⟨0, 0⟩ 16 .call,
  .jumpBack 5]

/-- Calls that reserve three holes, fill two of them and have one refused. -/
theorem lawful_of_run_sampleCalls :
    ∃ b, start.run sampleCalls = some b ∧ (b.reserved = 3 ∧ b.filled = 2) ∧ b.Lawful := by
  have hsome : (start.run sampleCalls).isSome = true := by decide +kernel
  obtain ⟨b, hb⟩ := Option.isSome_iff_exists.1 hsome
  have hcount : (start.run sampleCalls).map (fun b => (b.reserved, b.filled)) = some (3, 2) := by decide +kernel
  rw [hb, Option.map_some, Option.some.injEq, Prod.mk.injEq] at hcount
  exact ⟨b, hb, hcount, lawful_of_run hb⟩

end Bench

end RegisterCompiler.X64
