import RegisterCompiler.Proofs.Layout.TwoPass
import RegisterCompiler.Proofs.Session.Outcome
import RegisterCompiler.Proofs.Word

/-!
# What a session has written

`Session.Wrote s after pieces` says that a session has gone on from `s` by writing pieces, each at its own offset. Every step of a
session that writes adds pieces (`Wrote.trans`), and filling a hole exchanges one piece for the one whose target is known
(`yields_fill`); as a hole takes up the bytes of its instruction, no other piece moves.
-/

namespace RegisterCompiler

open X64 (Assembler AssemblyError Hole HoleKind Instruction Item Sequence)

/-! ## Filling a hole -/

/-- A target inside the code is out of reach only of code that is too large. -/
theorem reachLimit_le_of_not_inReach {target stop total : Nat} (h : ¬InReach target stop) (ht : target ≤ total)
    (hs : stop ≤ total) : reachLimit ≤ total := by
  have hmin : Int32.minValue.toInt = -2147483648 := by decide
  have hmax : Int32.maxValue.toInt = 2147483647 := by decide
  rw [InReach, hmin, hmax] at h
  unfold reachLimit
  omega

/-- A target within reach has its displacement. -/
theorem displacement?_of_inReach {target stop : Nat} (h : InReach target stop) :
    X64.displacement? ((target : Int) - stop) = some (displacementTo target stop) := if_pos h

/-- A target out of reach has no displacement. -/
theorem displacement?_of_not_inReach {target stop : Nat} (h : ¬InReach target stop) :
    X64.displacement? ((target : Int) - stop) = none := if_neg h

/-- What is changed behind a list is the first element behind it. -/
theorem modify_middle {α : Type} (f : α → α) (before : List α) (x : α) (behind : List α) :
    (before ++ x :: behind).modify before.length f = before ++ f x :: behind := by
  rw [List.modify_eq_take_cons_drop (by simp)]
  simp

/-- Filling a hole puts the instruction in its place and leaves everything else as it is. -/
theorem fill_of_inReach {kind : HoleKind} {a : Assembler} {before behind : List Item} {target : Nat}
    {instruction : Int32 → Instruction} (hitems : a.items.toList = before ++ .hole kind :: behind)
    (hsize : ∀ d, (instruction d).size = kind.size) (htarget : target ≤ a.offset)
    (hreach : InReach target (X64.itemsSize before + kind.size)) :
    ∃ a', a.fill (⟨before.length, X64.itemsSize before⟩ : Hole kind) target instruction = .ok a' ∧
      a'.items.toList =
        before ++ .instruction (instruction (displacementTo target (X64.itemsSize before + kind.size))) :: behind := by
  unfold Assembler.fill
  rw [if_neg (Nat.not_lt.2 htarget)]
  split
  · rename_i hnone
    rw [displacement?_of_inReach hreach] at hnone
    cases hnone
  · rename_i d hsome
    rw [displacement?_of_inReach hreach] at hsome
    obtain rfl := Option.some.inj hsome
    refine ⟨_, rfl, ?_⟩
    rw [Array.toList_modify, hitems, modify_middle]
    simp [Item.fill, hsize]

/-- A hole whose target is too far away is refused. -/
theorem fill_of_not_inReach {kind : HoleKind} {a : Assembler} {hole : Hole kind} {target : Nat}
    {instruction : Int32 → Instruction} (htarget : target ≤ a.offset) (hreach : ¬InReach target (hole.offset + kind.size)) :
    a.fill hole target instruction = .error (.outOfRange hole.offset target) := by
  unfold Assembler.fill
  rw [if_neg (Nat.not_lt.2 htarget)]
  split
  · rfl
  · rename_i d hsome
    rw [displacement?_of_not_inReach hreach] at hsome
    cases hsome

/-! ## Writing an address -/

/-- The address of an offset within reach is written with its exact displacement. -/
theorem emitAddress_of_inReach {a : Assembler} {dest : X64.Reg} {target : Nat} (h : target < 2 ^ 63)
    (hreach : InReach target (a.offset + 7)) :
    a.emitAddress dest (UInt64.ofNat target) =
      .ok (.ok (a.emit (.address dest (displacementTo target (a.offset + 7))))) := by
  unfold Assembler.emitAddress X64.Assembler.signedDifference
  have hmin : Int64.minValue.toInt = -9223372036854775808 := by decide
  have hmin32 : Int32.minValue.toInt = -2147483648 := by decide
  have hlow := hreach.1
  rw [hmin32] at hlow
  rw [toInt64_ofNat h, hmin, if_neg (by omega)]
  simp only [bind, Except.bind, displacement?_of_inReach hreach]
  rfl

/-- The address of code that is written already is refused if it is not within reach. -/
theorem emitAddress_of_far {a : Assembler} (dest : X64.Reg) {target : Nat} (htarget : target ≤ a.offset)
    (h : 2 ^ 63 ≤ target ∨ ¬InReach target (a.offset + 7)) (a' : Assembler) :
    a.emitAddress dest (UInt64.ofNat target) ≠ .ok (.ok a') := by
  have hmin32 : Int32.minValue.toInt = -2147483648 := by decide
  have hnone : X64.displacement? ((UInt64.ofNat target).toInt64.toInt - (a.offset + 7 : Nat)) = none := by
    by_cases hlarge : 2 ^ 63 ≤ target
    · have := toInt64_ofNat_le hlarge
      exact if_neg (by rw [hmin32]; omega)
    · rw [toInt64_ofNat (Nat.lt_of_not_le hlarge)]
      exact displacement?_of_not_inReach (h.resolve_left hlarge)
  unfold Assembler.emitAddress X64.Assembler.signedDifference
  simp only [bind, Except.bind]
  split
  · exact nofun
  · rename_i d hd
    split at hd
    · cases hd
    · obtain rfl := Except.ok.inj hd
      rw [hnone]
      exact nofun

/-! ## Writing pieces -/

/-- The number of items that a session has written. -/
def Session.count (s : Session) : Nat := s.assembler.items.size

/-- A session stands behind all items that it has written. -/
theorem Session.offset_eq (s : Session) : s.offset = X64.itemsSize s.assembler.items.toList := s.assembler.offset_eq

/-- A session that has gone on by writing pieces. -/
structure Session.Wrote (s after : Session) (pieces : List Piece) : Prop where
  items : after.assembler.items.toList = s.assembler.items.toList ++ itemsOf s.offset pieces
  reach : AllReach s.offset pieces
  intrinsics : after.intrinsics = s.intrinsics
  procedures : after.procedures = s.procedures

namespace Session.Wrote

variable {s after later : Session} {pieces pieces' : List Piece}

theorem refl (s : Session) : s.Wrote s [] := ⟨by simp, by simp, rfl, rfl⟩

/-- A session that has written pieces stands behind them. -/
theorem offset (h : s.Wrote after pieces) : after.offset = s.offset + piecesSize pieces := by
  rw [Session.offset_eq, h.items, X64.itemsSize_append, itemsSize_itemsOf, ← Session.offset_eq]

/-- A session that has written pieces has as many items more. -/
theorem count (h : s.Wrote after pieces) : after.count = s.count + pieces.length := by
  have := congrArg List.length h.items
  simpa [Session.count] using this

theorem trans (h : s.Wrote after pieces) (h' : after.Wrote later pieces') : s.Wrote later (pieces ++ pieces') := by
  refine ⟨?_, ?_, h'.intrinsics.trans h.intrinsics, h'.procedures.trans h.procedures⟩
  · rw [h'.items, h.items, h.offset, itemsOf_append, List.append_assoc]
  · exact (allReach_append _ _ _).2 ⟨h.reach, h.offset ▸ h'.reach⟩

/-- What was written does not hang on the open jumps and calls of a session. -/
theorem of_assembler {after' : Session} (h : s.Wrote after pieces) (ha : after'.assembler = after.assembler)
    (hi : after'.intrinsics = after.intrinsics) (hp : after'.procedures = after.procedures) : s.Wrote after' pieces :=
  ⟨by rw [ha]; exact h.items, h.reach, hi.trans h.intrinsics, hp.trans h.procedures⟩

end Session.Wrote

/-- The open jumps and calls of a session are those of another one. -/
structure Session.SameOpen (s after : Session) : Prop where
  calls : after.calls = s.calls
  loops : after.loops = s.loops

theorem Session.SameOpen.refl (s : Session) : s.SameOpen s := ⟨rfl, rfl⟩

theorem Session.SameOpen.trans {s after later : Session} (h : s.SameOpen after) (h' : after.SameOpen later) :
    s.SameOpen later :=
  ⟨h'.calls.trans h.calls, h'.loops.trans h.loops⟩

/-- Adding one item to the code of a session is writing the piece of it. -/
theorem Session.wrote_add {s after : Session} {piece : Piece} (ha : after.assembler = s.assembler.add (piece.item s.offset))
    (hr : piece.Reaches s.offset) (hi : after.intrinsics = s.intrinsics) (hp : after.procedures = s.procedures) :
    s.Wrote after [piece] :=
  ⟨by simp [ha, Assembler.add], by simpa using hr, hi, hp⟩

/-- An emitted sequence is appended, one item for each instruction. -/
theorem items_emitAll (a : Assembler) (sequence : Sequence) :
    (a.emitAll sequence).items.toList = a.items.toList ++ sequence.map .instruction := by
  unfold Assembler.emitAll
  induction sequence generalizing a with
  | nil => simp
  | cons i rest ih => simp [ih, Assembler.emit, Assembler.add]

/-- Plain pieces are written as their instructions. -/
theorem itemsOf_plainPieces (offset : Nat) (sequence : Sequence) :
    itemsOf offset (plainPieces sequence) = sequence.map .instruction := by
  induction sequence generalizing offset with
  | nil => rfl
  | cons i rest ih =>
    simp only [plainPieces, List.map_cons, itemsOf_cons] at ih ⊢
    rw [ih]
    rfl

namespace Compile

variable {total : Nat} {s : Session}

/-- Asking for the offset does not change the session. -/
theorem yields_offset : Yields total offset s [] fun a after => a = s.offset ∧ after = s := .of_run rfl ⟨rfl, rfl⟩

/-- The session with instructions written. -/
theorem yields_emit (sequence : Sequence) :
    Yields total (emit sequence) s [] fun _ after => s.Wrote after (plainPieces sequence) ∧ s.SameOpen after := by
  refine .of_run rfl ⟨⟨?_, allReach_plainPieces _ _, rfl, rfl⟩, rfl, rfl⟩
  rw [itemsOf_plainPieces]
  exact items_emitAll s.assembler sequence

/-- Data is written as a text. -/
theorem yields_embed (bytes : List UInt8) :
    Yields total (embed bytes) s [] fun range after =>
      range = ⟨s.offset, s.offset + bytes.length⟩ ∧ s.Wrote after [.text bytes] ∧ s.SameOpen after :=
  .of_run rfl ⟨rfl, Session.wrote_add rfl (by simp [Piece.Reaches, Piece.target?]) rfl rfl, rfl, rfl⟩

/-- A hole is written as any piece whose target is not known. -/
theorem yields_reserve (kind : HoleKind) (piece : Piece) (hitem : piece.item s.offset = .hole kind)
    (hr : piece.Reaches s.offset) :
    Yields total (reserve kind) s [] fun hole after =>
      hole = ⟨s.count, s.offset⟩ ∧ s.Wrote after [piece] ∧ s.SameOpen after :=
  .of_run rfl ⟨rfl, Session.wrote_add (by rw [hitem]) hr rfl rfl, rfl, rfl⟩

/-- A change of the code that may be refused. -/
theorem run_patch (step : Assembler → Except AssemblyError Assembler) :
    (patch step).run s = match step s.assembler with
      | .ok a => (.ok (), { s with assembler := a })
      | .error e => (.error (CompileError.ofAssembly e), s) := by
  unfold patch
  rw [run_bind]
  show (match step s.assembler with
    | .ok a => modify fun s => { s with assembler := a }
    | .error e => throw (CompileError.ofAssembly e) : Compile Unit).run s = _
  cases step s.assembler <;> rfl

/-- Filling the hole of a piece exchanges it for the piece whose target is known. The target is written already, so it is out of
reach only of code that is too large. -/
theorem yields_fill {kind : HoleKind} {base : Session} {before behind : List Piece} (piece settled : Piece) {target : Nat}
    {instruction : Int32 → Instruction} {hole : Hole kind} (h : base.Wrote s (before ++ piece :: behind))
    (hhole : hole = ⟨base.count + before.length, base.offset + piecesSize before⟩)
    (hitem : piece.item (base.offset + piecesSize before) = .hole kind)
    (hsettled : settled.item (base.offset + piecesSize before) =
      .instruction (instruction (displacementTo target (base.offset + piecesSize before + kind.size))))
    (hsize : ∀ d, (instruction d).size = kind.size) (hknown : settled.target? = some (.offset target))
    (htarget : target ≤ s.offset) (hroom : s.offset ≤ total) :
    Yields total (patch fun a => a.fill hole target instruction) s [] fun _ after =>
      base.Wrote after (before ++ settled :: behind) ∧ s.SameOpen after := by
  have hp : piece.size = kind.size := by
    rw [← Piece.size_item, hitem]
    cases kind <;> rfl
  have hq : settled.size = kind.size := by
    rw [← Piece.size_item, hsettled]
    exact hsize _
  obtain ⟨items, hi⟩ : ∃ items, items = base.assembler.items.toList ++ itemsOf base.offset before := ⟨_, rfl⟩
  have hlen : items.length = base.count + before.length := by
    rw [hi, List.length_append, length_itemsOf, Array.length_toList]
    rfl
  have hoff : X64.itemsSize items = base.offset + piecesSize before := by
    rw [hi, X64.itemsSize_append, itemsSize_itemsOf, ← Session.offset_eq]
  obtain ⟨rest, hrest⟩ : ∃ rest, rest = itemsOf (base.offset + piecesSize before + kind.size) behind := ⟨_, rfl⟩
  have hall : s.assembler.items.toList = items ++ .hole kind :: rest := by
    rw [h.items, itemsOf_append, itemsOf_cons, hitem, hp, hi, hrest, List.append_assoc]
  have hstop : base.offset + piecesSize before + kind.size ≤ s.offset := by
    rw [h.offset, piecesSize_append, piecesSize_cons, hp]
    omega
  rw [← hlen, ← hoff] at hhole
  unfold Yields
  rw [run_patch]
  -- out of reach there must be that much code between hole and target
  by_cases hreach : InReach target (X64.itemsSize items + kind.size)
  · obtain ⟨a, ha, haitems⟩ := fill_of_inReach hall hsize htarget hreach
    rw [hhole, ha]
    refine ⟨rfl, ⟨?_, ?_, h.intrinsics, h.procedures⟩, rfl, rfl⟩
    · rw [itemsOf_append, itemsOf_cons, hsettled, hq, ← List.append_assoc, ← hi, ← hrest, ← hoff]
      exact haitems
    · have hold := (allReach_append _ _ _).1 h.reach
      refine (allReach_append _ _ _).2 ⟨hold.1, (allReach_cons _ _ _).2 ⟨?_, ?_⟩⟩
      · intro n hn
        obtain rfl : target = n := by simpa [hknown] using hn
        rw [hq, ← hoff]
        exact hreach
      · rw [hq, ← hp]
        exact ((allReach_cons _ _ _).1 hold.2).2
  · rw [fill_of_not_inReach htarget (hhole ▸ hreach)]
    exact Or.inr ⟨⟨_, rfl⟩, reachLimit_le_of_not_inReach hreach (Nat.le_trans htarget hroom)
      (hoff ▸ Nat.le_trans hstop hroom)⟩

end Compile

end RegisterCompiler
