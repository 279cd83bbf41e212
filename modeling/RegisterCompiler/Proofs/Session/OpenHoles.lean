import RegisterCompiler.Proofs.Layout.Resolve
import RegisterCompiler.Proofs.Session.Written

/-!
# Open jumps and calls

The jumps out of a loop, the jumps to the next round of a loop and the calls that a session keeps for later are exactly the pieces
whose targets are not known, in the order in which they stand in the code (`openHoles`). Filling them all, one after another,
gives every one of these pieces its target (`yields_forM_openHoles`).
-/

namespace RegisterCompiler

open X64 (Assembler Hole HoleKind Item)

/-- The position of a jump out of a loop that is still open. -/
def Piece.openStop? : Piece → Option Position
  | jump (.loopStop position) => some position
  | _ => none

/-- The position of a jump to the next round of a loop that is still open. -/
def Piece.openStart? : Piece → Option Position
  | jump (.loopStart position) => some position
  | _ => none

/-- The name of a call that is still open. -/
def Piece.openCall? : Piece → Option String
  | call (.procedure name) => some name
  | _ => none

section

variable {β : Type} {kind : HoleKind}

/-- The holes of the pieces that are picked, with what they are picked for; the first piece has the given number and offset. -/
def openHoles (pick : Piece → Option β) (index offset : Nat) : List Piece → List (Hole kind × β)
  | [] => []
  | piece :: rest =>
    match pick piece with
    | some b => (⟨index, offset⟩, b) :: openHoles pick (index + 1) (offset + piece.size) rest
    | none => openHoles pick (index + 1) (offset + piece.size) rest

/-- The holes of two parts are those of the first, and those of the second behind it. -/
@[simp] theorem openHoles_append (pick : Piece → Option β) (index offset : Nat) (a b : List Piece) :
    (openHoles pick index offset (a ++ b) : List (Hole kind × β)) =
      openHoles pick index offset a ++ openHoles pick (index + a.length) (offset + piecesSize a) b := by
  induction a generalizing index offset with
  | nil => rfl
  | cons piece rest ih =>
    simp only [List.cons_append, openHoles, ih, List.length_cons, piecesSize_cons]
    rw [show index + 1 + rest.length = index + (rest.length + 1) by omega, Nat.add_assoc]
    split <;> rfl

/-- Pieces that are not picked have no holes. -/
theorem openHoles_eq_nil {pick : Piece → Option β} {pieces : List Piece} (h : ∀ p ∈ pieces, pick p = none)
    (index offset : Nat) : (openHoles pick index offset pieces : List (Hole kind × β)) = [] := by
  induction pieces generalizing index offset with
  | nil => rfl
  | cons piece rest ih =>
    simp only [List.mem_cons, forall_eq_or_imp] at h
    simp [openHoles, h.1, ih h.2]

/-- If only pieces in the middle are picked, the holes are theirs. -/
theorem openHoles_middle {pick : Piece → Option β} {a c : List Piece} (ha : ∀ p ∈ a, pick p = none)
    (hc : ∀ p ∈ c, pick p = none) (index offset : Nat) (b : List Piece) :
    (openHoles pick index offset (a ++ b ++ c) : List (Hole kind × β)) =
      openHoles pick (index + a.length) (offset + piecesSize a) b := by
  simp [openHoles_eq_nil ha, openHoles_eq_nil hc]

/-- The holes that are picked stay the same if other pieces change. -/
theorem openHoles_map {pick : Piece → Option β} {f : Piece → Piece} (h : ∀ p, pick (f p) = pick p)
    (hsize : ∀ p, (f p).size = p.size) (index offset : Nat) (pieces : List Piece) :
    (openHoles pick index offset (pieces.map f) : List (Hole kind × β)) = openHoles pick index offset pieces := by
  induction pieces generalizing index offset with
  | nil => rfl
  | cons piece rest ih => simp [openHoles, h, hsize, ih]

/-- The holes are for what the picked pieces are picked for. -/
theorem map_snd_openHoles (pick : Piece → Option β) (index offset : Nat) (pieces : List Piece) :
    (openHoles pick index offset pieces : List (Hole kind × β)).map Prod.snd = pieces.filterMap pick := by
  induction pieces generalizing index offset with
  | nil => rfl
  | cons piece rest ih =>
    simp only [openHoles, List.filterMap_cons]
    split <;> simp_all

/-- Steps that fill one hole each fill all of them. -/
theorem Compile.yields_forM_openHoles (total : Nat) (pick : Piece → Option β) (step : Hole kind × β → Compile Unit)
    (faults : β → List CompileError) (settle : Piece → Piece) {base : Session} {size : Nat}
    (hsize : ∀ p, (settle p).size = p.size) (hkeep : ∀ p, pick p = none → settle p = p)
    (hstep : ∀ (s : Session) (before : List Piece) (p : Piece) (b : β) (behind : List Piece),
      base.Wrote s (before ++ p :: behind) → s.offset = size → pick p = some b →
      Yields total (step (⟨base.count + before.length, base.offset + piecesSize before⟩, b)) s (faults b) fun _ after =>
        base.Wrote after (before ++ settle p :: behind) ∧ s.SameOpen after)
    (pieces before behind : List Piece) (s : Session) (h : base.Wrote s (before ++ pieces ++ behind))
    (hs : s.offset = size) :
    Yields total ((openHoles pick (base.count + before.length) (base.offset + piecesSize before) pieces).forM step) s
      ((pieces.filterMap pick).flatMap faults) fun _ after =>
        base.Wrote after (before ++ pieces.map settle ++ behind) ∧ s.SameOpen after := by
  induction pieces generalizing before s with
  | nil => exact .pure ⟨h, .refl s⟩
  | cons p rest ih =>
    have hnext : ∀ (t : Session), base.Wrote t (before ++ [settle p] ++ rest ++ behind) → t.offset = size →
        Yields total ((openHoles pick (base.count + before.length + 1) (base.offset + piecesSize before + p.size) rest).forM step)
          t ((rest.filterMap pick).flatMap faults) fun _ after =>
            base.Wrote after (before ++ (p :: rest).map settle ++ behind) ∧ t.SameOpen after := by
      intro t ht hb
      have := ih (before ++ [settle p]) t ht hb
      simpa [hsize, Nat.add_assoc] using this
    cases hp : pick p with
    | none =>
      simp only [openHoles, hp, List.filterMap_cons]
      refine hnext s ?_ hs
      rw [hkeep p hp]
      simpa using h
    | some b =>
      simp only [openHoles, hp, List.filterMap_cons, List.flatMap_cons, List.forM_eq_forM, List.forM_cons]
      refine .bind (hstep s before p b (rest ++ behind) (by simpa using h) hs hp) fun _ t ht => ?_
      have hsame : t.offset = s.offset := by
        rw [ht.1.offset, h.offset]
        simp [hsize]
      refine (hnext t (by simpa using ht.1) (hsame.trans hs)).mono fun _ after ha => ⟨ha.1, ht.2.trans ha.2⟩

end

/-! ## What a session keeps open -/

/-- A loop context with the open jumps of pieces added. -/
def LoopContext.add (c : LoopContext) (index offset : Nat) (pieces : List Piece) : LoopContext where
  breaks := c.breaks ++ openHoles Piece.openStop? index offset pieces
  continues := c.continues ++ openHoles Piece.openStart? index offset pieces

/-- The jumps of two parts are added one part after the other. -/
theorem LoopContext.add_append (c : LoopContext) (index offset : Nat) (a b : List Piece) :
    c.add index offset (a ++ b) = (c.add index offset a).add (index + a.length) (offset + piecesSize a) b := by
  simp [add]

/-- A session that has gone on by writing pieces and keeps exactly those open whose targets are not known. -/
structure Session.Grew (s after : Session) (pieces : List Piece) : Prop where
  wrote : s.Wrote after pieces
  calls : after.calls = s.calls ++ openHoles Piece.openCall? s.count s.offset pieces
  loops : ∀ c rest, s.loops = c :: rest → after.loops = c.add s.count s.offset pieces :: rest

/-- A piece that nothing is kept open for. -/
def Piece.Closed (p : Piece) : Prop := p.openStop? = none ∧ p.openStart? = none ∧ p.openCall? = none

namespace Session.Grew

variable {s after later : Session} {pieces pieces' : List Piece}

theorem refl (s : Session) : s.Grew s [] :=
  ⟨.refl s, by simp [openHoles], fun c rest h => by simp [h, LoopContext.add, openHoles]⟩

/-- What a session grows by and then grows by, it grows by at once. -/
theorem trans (h : s.Grew after pieces) (h' : after.Grew later pieces') : s.Grew later (pieces ++ pieces') := by
  refine ⟨h.wrote.trans h'.wrote, ?_, fun c rest hc => ?_⟩
  · rw [h'.calls, h.calls, h.wrote.count, h.wrote.offset, openHoles_append, List.append_assoc]
  · rw [h'.loops _ _ (h.loops c rest hc), h.wrote.count, h.wrote.offset, LoopContext.add_append]

/-- A step that writes closed pieces keeps nothing more open. -/
theorem of_closed (h : s.Wrote after pieces) (h' : s.SameOpen after) (hc : ∀ p ∈ pieces, p.Closed) : s.Grew after pieces := by
  refine ⟨h, ?_, fun c rest hr => ?_⟩
  · rw [h'.calls, openHoles_eq_nil fun p hp => (hc p hp).2.2, List.append_nil]
  · rw [h'.loops, hr, LoopContext.add, openHoles_eq_nil fun p hp => (hc p hp).1,
      openHoles_eq_nil fun p hp => (hc p hp).2.1, List.append_nil, List.append_nil]

end Session.Grew

/-- A step inside a new loop context returns the open jumps of its pieces and keeps its calls open. -/
theorem Compile.yields_inContext {total : Nat} {s : Session} {step : Compile Unit} {faults : List CompileError}
    {pieces : List Piece} (h : Yields total step { s with loops := {} :: s.loops } faults fun _ after =>
      Session.Grew { s with loops := {} :: s.loops } after pieces) :
    Yields total (inContext step) s faults fun context after =>
      context = ({} : LoopContext).add s.count s.offset pieces ∧ s.Wrote after pieces ∧
        after.calls = s.calls ++ openHoles Piece.openCall? s.count s.offset pieces ∧ after.loops = s.loops := by
  refine Yields.inContext (h.mono fun _ after ha => ?_)
  rw [ha.loops {} s.loops rfl]
  exact ⟨rfl, ⟨ha.wrote.items, ha.wrote.reach, ha.wrote.intrinsics, ha.wrote.procedures⟩, ha.calls, rfl⟩

/-! ## Exchanged pieces -/

/-- What a session remembers of a piece: its size, and what it is kept open for. -/
def Piece.outline (p : Piece) : Nat × Option Position × Option Position × Option String :=
  (p.size, p.openStop?, p.openStart?, p.openCall?)

/-- Pieces of the same outlines have the same holes. -/
theorem openHoles_congr {β : Type} {kind : HoleKind} (pick : Piece → Option β)
    (hpick : ∀ p q, p.outline = q.outline → pick p = pick q) {a b : List Piece}
    (h : a.map Piece.outline = b.map Piece.outline) (index offset : Nat) :
    (openHoles pick index offset a : List (Hole kind × β)) = openHoles pick index offset b := by
  induction a generalizing b index offset with
  | nil =>
    obtain rfl := List.map_eq_nil_iff.1 h.symm
    rfl
  | cons p rest ih =>
    obtain ⟨q, rest', rfl, hq, hrest⟩ := List.map_eq_cons_iff.1 h.symm
    have hsize : q.size = p.size := congrArg (·.1) hq
    simp only [openHoles, hpick _ _ hq, hsize, ih hrest.symm]

/-- Filling holes that nothing is kept open for leaves everything open that was open. -/
theorem Session.Grew.exchange {s after later : Session} {pieces pieces' : List Piece} (h : s.Grew after pieces)
    (hw : s.Wrote later pieces') (hsame : after.SameOpen later) (houtline : pieces.map Piece.outline = pieces'.map Piece.outline) :
    s.Grew later pieces' := by
  refine ⟨hw, ?_, fun c rest hc => ?_⟩
  · rw [hsame.calls, h.calls, openHoles_congr Piece.openCall? (fun p q e => congrArg (·.2.2.2) e) houtline]
  · rw [hsame.loops, h.loops c rest hc, LoopContext.add, LoopContext.add,
      openHoles_congr Piece.openStop? (fun p q e => congrArg (·.2.1) e) houtline,
      openHoles_congr Piece.openStart? (fun p q e => congrArg (·.2.2.1) e) houtline]

/-! ## Pieces that nothing is kept open for -/

/-- Nothing is kept open for plain pieces. -/
theorem closed_plainPieces (sequence : X64.Sequence) : ∀ p ∈ plainPieces sequence, p.Closed := by
  intro p hp
  obtain ⟨i, _, rfl⟩ := List.mem_map.1 hp
  exact ⟨rfl, rfl, rfl⟩

/-- Nothing is kept open for a test. -/
theorem closed_testPieces (c : Condition) (target : Nat) : ∀ p ∈ c.testPieces target, p.Closed := by
  intro p hp
  rcases List.mem_append.1 hp with hp | hp
  · exact closed_plainPieces _ p hp
  · obtain rfl := List.mem_singleton.1 hp
    exact ⟨rfl, rfl, rfl⟩

/-- Nothing is kept open for the code that prints a text. -/
theorem closed_textPieces (intrinsics : Intrinsics) (start : Nat) (text : List UInt8) :
    ∀ p ∈ textPieces intrinsics start text, p.Closed := by
  intro p hp
  simp only [textPieces, List.cons_append, List.mem_cons, List.mem_append] at hp
  rcases hp with rfl | rfl | hp | rfl | hp
  · exact ⟨rfl, rfl, rfl⟩
  · exact ⟨rfl, rfl, rfl⟩
  · exact closed_plainPieces _ p hp
  · exact ⟨rfl, rfl, rfl⟩
  · exact closed_plainPieces _ p hp

end RegisterCompiler
