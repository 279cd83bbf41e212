import RegisterCompiler.Proofs.Faults
import RegisterCompiler.Proofs.Session.OpenHoles

/-!
# Compiling tests and actions

What a session writes for the parts of a statement that have no body: a test, whose branch is filled when its statement has ended
(`yields_guarded`), and an action, which leaves the jumps out of a loop and the calls open (`yields_action`).
-/

namespace RegisterCompiler

open X64 (Assembler Hole HoleKind)

/-! ## Tests -/

/-- A condition has a compare unless it is one on two immediates. -/
theorem Condition.compare_cases (c : Condition) :
    (c.bothImmediate = true ∧ c.compare = .error ⟨.unsupportedComparison, c.position⟩) ∨
      (c.bothImmediate = false ∧ c.compare = .ok (c.compareCode, c.flagComparison)) := by
  cases hl : c.lhs.value <;> cases hr : c.rhs.value <;>
    simp [Condition.bothImmediate, Condition.compareCode, Condition.flagComparison, Condition.compare, hl, hr]

namespace Compile

/-- The pieces of a test whose branch does not know its target yet. -/
def openTest (c : Condition) : List Piece := plainPieces c.compareCode ++ [.branch c.flagComparison.complement.code .later]

/-- The branch of a test that is written behind pieces, and the comparison that it tests. -/
def skipBehind (base : Session) (before : List Piece) (c : Condition) : Hole .branch × Comparison :=
  (⟨base.count + (before ++ plainPieces c.compareCode).length, base.offset + piecesSize (before ++ plainPieces c.compareCode)⟩,
    c.flagComparison)

variable {total : Nat} {s base : Session}

/-- A test writes a compare and a hole, unless it compares two immediates. -/
theorem yields_skipUnless (c : Condition) :
    Yields total (skipUnless c) s c.faults fun skip after =>
      skip = skipBehind s [] c ∧ s.Wrote after (openTest c) ∧ s.SameOpen after := by
  unfold skipUnless Condition.faults
  rcases c.compare_cases with ⟨hb, hc⟩ | ⟨hb, hc⟩
  · rw [hc, hb]
    exact .throw fun a h => by cases h
  · rw [hc, hb]
    refine Yields.bind (yields_emit c.compareCode) fun _ t ht => ?_
    refine Yields.bind (yields_reserve .branch (.branch c.flagComparison.complement.code .later) rfl (fun _ h => by cases h))
      fun hole u hu => .pure ⟨?_, ht.1.trans hu.2.1, ht.2.trans hu.2.2⟩
    rw [hu.1, ht.1.count, ht.1.offset]
    rfl

/-- Filling the branch of a test. -/
theorem yields_landSkip (before : List Piece) {behind : List Piece} {c : Condition} {target : Nat}
    (h : base.Wrote s (before ++ openTest c ++ behind)) (htarget : target ≤ s.offset)
    (hroom : s.offset ≤ total) :
    Yields total (landSkip (skipBehind base before c) target) s [] fun _ after =>
      base.Wrote after (before ++ c.testPieces target ++ behind) ∧ s.SameOpen after := by
  have hwrote : base.Wrote s
      (before ++ plainPieces c.compareCode ++ .branch c.flagComparison.complement.code .later :: behind) := by
    simpa [openTest] using h
  have := yields_fill (.branch c.flagComparison.complement.code .later)
    (.branch c.flagComparison.complement.code (.offset target)) hwrote rfl rfl rfl (fun d => rfl) rfl htarget hroom
  refine this.mono fun _ after ha => ⟨?_, ha.2⟩
  simpa [Condition.testPieces] using ha.1

/-- Filling a jump. -/
theorem yields_patchJump (before : List Piece) {behind : List Piece} (target : Target) (n : Nat)
    (h : base.Wrote s (before ++ .jump target :: behind)) (ht : ∀ m, target ≠ .offset m) (hn : n ≤ s.offset)
    (hroom : s.offset ≤ total) :
    Yields total (patch fun a => a.patchJump ⟨base.count + before.length, base.offset + piecesSize before⟩ n) s [] fun _ after =>
      base.Wrote after (before ++ .jump (.offset n) :: behind) ∧ s.SameOpen after := by
  refine yields_fill (.jump target) (.jump (.offset n)) h rfl ?_ rfl (fun d => rfl) rfl hn hroom
  cases target with
  | offset m => exact absurd rfl (ht m)
  | _ => rfl

/-- A jump back is written with its target. -/
theorem yields_jumpBack {target : Nat} (h : target ≤ s.offset) (hroom : s.offset + 5 ≤ total) :
    Yields total (jumpBack target) s [] fun _ after => s.Wrote after [.jump (.offset target)] ∧ s.SameOpen after := by
  unfold jumpBack
  refine Yields.bind (yields_reserve .jump (.jump .later) rfl (fun _ h => by cases h)) fun hole t ht => ?_
  have hoffset : t.offset = s.offset + 5 := ht.2.1.offset
  have := yields_patchJump [] .later target ht.2.1 nofun (by omega) (hoffset ▸ hroom)
  obtain rfl := ht.1
  exact this.mono fun _ after ha => ⟨ha.1, ht.2.2.trans ha.2⟩

/-- The pieces of a test that may be missing. -/
def openSkip : Option Condition → List Piece
  | none => []
  | some c => openTest c

/-- The test of a loop, if it has one. -/
theorem yields_mapM_skipUnless (condition : Option Condition) :
    Yields total (condition.mapM skipUnless) s (conditionFaults condition) fun exit after =>
      exit = condition.map (skipBehind s []) ∧ s.Wrote after (openSkip condition) ∧ s.SameOpen after := by
  cases condition with
  | none => exact .pure ⟨rfl, .refl s, .refl s⟩
  | some c =>
    have : (some c).mapM skipUnless = skipUnless c >>= fun skip => Pure.pure (some skip) := by simp [Option.mapM]
    rw [this, conditionFaults, ← List.append_nil c.faults]
    exact Yields.bind (yields_skipUnless c) fun skip t ht => .pure ⟨by simp [ht.1], ht.2⟩

/-- Nothing is kept open for the branch of a test. -/
theorem closed_openTest (c : Condition) : ∀ p ∈ openTest c, p.Closed := by
  intro p hp
  rcases List.mem_append.1 hp with hp | hp
  · exact closed_plainPieces _ p hp
  · obtain rfl := List.mem_singleton.1 hp
    exact ⟨rfl, rfl, rfl⟩

/-- Apart from its target the test is written as it will be. -/
theorem outline_openTest (c : Condition) (target : Nat) :
    (openTest c).map Piece.outline = (c.testPieces target).map Piece.outline := by
  simp [openTest, Condition.testPieces, Piece.outline, Piece.size, Piece.openStop?, Piece.openStart?, Piece.openCall?]

/-- The test has its size before its target is known. -/
theorem piecesSize_openTest (c : Condition) : piecesSize (openTest c) = c.testSize := by
  simp [openTest, Condition.testSize, Piece.size, HoleKind.size]

/-! ## Guards and actions -/

/-- A guarded step is the step behind a test that goes to its end. -/
theorem yields_guarded {step : Compile Unit} {size : Nat} {faults : List CompileError} (guard : Option Condition)
    (core : Nat → List Piece) (hsize : ∀ o, piecesSize (core o) = size)
    (hroom : s.offset + skipSize guard + size ≤ total)
    (hstep : ∀ t : Session, t.intrinsics = s.intrinsics → t.loops = s.loops → t.offset + size ≤ total →
      Yields total step t faults fun _ after => t.Grew after (core t.offset)) :
    Yields total (guarded guard step) s (conditionFaults guard ++ faults) fun _ after =>
      s.Grew after (skipPieces guard (s.offset + skipSize guard + size) ++ core (s.offset + skipSize guard)) := by
  cases guard with
  | none => exact hstep s rfl rfl hroom
  | some c =>
    refine Yields.bind (yields_skipUnless c) fun skip t ht => ?_
    obtain ⟨rfl, hwrote, hopen⟩ := ht
    have ht : t.offset = s.offset + c.testSize := by rw [hwrote.offset, piecesSize_openTest]
    rw [← List.append_nil faults]
    refine Yields.bind (hstep t hwrote.intrinsics hopen.loops (ht ▸ hroom)) fun _ u hu => ?_
    have hgrew : s.Grew u (openTest c ++ core t.offset) := (Session.Grew.of_closed hwrote hopen (closed_openTest c)).trans hu
    refine Yields.bind yields_offset fun stop v hv => ?_
    obtain ⟨rfl, rfl⟩ := hv
    have hstop : v.offset = s.offset + c.testSize + size := by
      rw [hgrew.wrote.offset, piecesSize_append, piecesSize_openTest, hsize, Nat.add_assoc]
    refine (yields_landSkip [] hgrew.wrote (Nat.le_refl _) (hstop ▸ hroom)).mono fun _ after ha => ?_
    rw [hstop, ht] at ha
    refine hgrew.exchange ha.1 ha.2 ?_
    rw [ht, List.map_append, outline_openTest c (s.offset + c.testSize + size), ← List.map_append]
    rfl

/-- A step that writes instructions. -/
theorem yields_emit_grew (sequence : X64.Sequence) :
    Yields total (emit sequence) s [] fun _ after => s.Grew after (plainPieces sequence) :=
  (yields_emit sequence).mono fun _ _ h => .of_closed h.1 h.2 (closed_plainPieces sequence)

/-- The address of code that is written already is exact, or out of reach of code that is too large. -/
theorem yields_emitAddress {dest : X64.Reg} {target : Nat} (h : target ≤ s.offset) (hroom : s.offset + 7 ≤ total) :
    Yields total (emitAddress dest target) s [] fun _ after => s.Wrote after [.address dest target] ∧ s.SameOpen after := by
  unfold Yields emitAddress
  rw [run_patch]
  by_cases hnear : target < 2 ^ 63 ∧ InReach target (s.assembler.offset + 7)
  · rw [emitAddress_of_inReach hnear.1 hnear.2]
    refine ⟨rfl, Session.wrote_add rfl ?_ rfl rfl, rfl, rfl⟩
    intro n hn
    obtain rfl : target = n := by simpa [Piece.target?] using hn
    exact hnear.2
  · have hfar : 2 ^ 63 ≤ target ∨ ¬InReach target (s.assembler.offset + 7) := by
      by_cases hlarge : 2 ^ 63 ≤ target
      · exact Or.inl hlarge
      · exact Or.inr fun hreach => hnear ⟨Nat.lt_of_not_le hlarge, hreach⟩
    have hlimit : reachLimit ≤ total := by
      rcases hfar with hlarge | hreach
      · have : s.assembler.offset = s.offset := rfl
        unfold reachLimit
        omega
      · exact reachLimit_le_of_not_inReach hreach (by omega) hroom
    have hrefused := emitAddress_of_far dest h hfar
    rcases hr : s.assembler.emitAddress dest (UInt64.ofNat target) with m | (e | a')
    · exact Or.inr ⟨⟨_, rfl⟩, hlimit⟩
    · exact Or.inr ⟨⟨_, rfl⟩, hlimit⟩
    · exact absurd hr (hrefused a')

/-- Looking at the session does not change it. -/
theorem yields_get : Yields total get s [] fun a after => a = s ∧ after = s := .of_run rfl ⟨rfl, rfl⟩

/-- A text is written behind a jump over it, which is filled at once, and its address is taken where it begins. -/
theorem yields_printText (text : String)
    (hroom : s.offset + (5 + (utf8Bytes text).length + textCallSize s.intrinsics) ≤ total) :
    Yields total (printText text) s [] fun _ after => s.Grew after (textPieces s.intrinsics s.offset (utf8Bytes text)) := by
  obtain ⟨bytes, hbytes⟩ : ∃ bytes, bytes = utf8Bytes text := ⟨_, rfl⟩
  unfold printText
  rw [← hbytes] at hroom ⊢
  unfold textCallSize at hroom
  refine Yields.bind (yields_reserve .jump (.jump .later) rfl (fun _ h => by cases h)) fun hole t ht => ?_
  obtain ⟨rfl, hjump, hopen⟩ := ht
  have ht : t.offset = s.offset + 5 := hjump.offset
  refine Yields.bind (yields_embed bytes) fun range u hu => ?_
  obtain ⟨rfl, htext, hopen'⟩ := hu
  have hu : u.offset = s.offset + 5 + bytes.length := by rw [htext.offset, ht]; rfl
  refine Yields.bind (yields_patchJump [] .later _ (hjump.trans htext) nofun (by simp only; omega) (by omega)) fun _ v₀ hv => ?_
  refine Yields.bind yields_get fun _ v hv' => ?_
  obtain ⟨rfl, rfl⟩ := hv'
  have hv' : v.offset = s.offset + 5 + bytes.length := by
    rw [hv.1.offset]
    simp [Piece.size, HoleKind.size, Nat.add_assoc]
  refine Yields.bind (yields_emit _) fun _ w hw => ?_
  have hw' : w.offset = v.offset + sequenceSize (enterHost v.intrinsics.printText .rax) := by
    rw [hw.1.offset, piecesSize_plainPieces]
  rw [hv.1.intrinsics] at hw'
  refine Yields.bind (yields_emitAddress (by simp only; omega) (by omega)) fun _ x hx => ?_
  refine Yields.bind (yields_emit _) fun _ y hy => ?_
  refine (yields_emit _).mono fun _ z hz => ?_
  have hall := (((hv.1.trans hw.1).trans hx.1).trans hy.1).trans hz.1
  have hpieces : [] ++ .jump (.offset (t.offset + bytes.length)) :: [.text bytes] ++
      plainPieces (enterHost v.intrinsics.printText .rax) ++ [.address .rdi t.offset] ++
      plainPieces [.moveImmediate .rsi (Int64.ofNat (t.offset + bytes.length - t.offset))] ++ plainPieces (leaveHost .rax) =
      textPieces s.intrinsics s.offset bytes := by
    simp [textPieces, plainPieces, hv.1.intrinsics, ht]
  have hsame := hopen.trans (hopen'.trans (hv.2.trans (hw.2.trans (hx.2.trans (hy.2.trans hz.2)))))
  exact .of_closed (hpieces ▸ hall) hsame (closed_textPieces _ _ _)

/-- An action writes its pieces; a jump that belongs to a loop and a call stay open. -/
theorem yields_action (position : Position) (a : Action) (hroom : s.offset + a.size s.intrinsics ≤ total) :
    Yields total (action position a) s (a.faults position) fun _ after =>
      s.Grew after (a.pieces s.intrinsics .unknown s.offset position) := by
  cases a with
  | assign dest source => exact yields_emit_grew _
  | update dest op source => exact yields_emit_grew _
  | compute dest op lhs rhs => exact .throw fun a h => by cases h
  | breakLoop =>
    refine Yields.bind (yields_reserve .jump (.jump (.loopStop position)) rfl (fun _ h => by cases h)) fun hole t ht => .of_run rfl ?_
    obtain ⟨rfl, hwrote, hopen⟩ := ht
    refine ⟨hwrote.of_assembler rfl rfl rfl, ?_, fun c rest hc => ?_⟩
    · simp [hopen.calls, Action.pieces, Surroundings.unknown, Surroundings.breakTarget, openHoles, Piece.openCall?]
    · simp [hopen.loops, hc, Action.pieces, Surroundings.unknown, Surroundings.breakTarget, LoopContext.add, openHoles,
        Piece.openStop?, Piece.openStart?]
  | continueLoop =>
    refine Yields.bind (yields_reserve .jump (.jump (.loopStart position)) rfl (fun _ h => by cases h)) fun hole t ht => .of_run rfl ?_
    obtain ⟨rfl, hwrote, hopen⟩ := ht
    refine ⟨hwrote.of_assembler rfl rfl rfl, ?_, fun c rest hc => ?_⟩
    · simp [hopen.calls, Action.pieces, Surroundings.unknown, Surroundings.continueTarget, openHoles, Piece.openCall?]
    · simp [hopen.loops, hc, Action.pieces, Surroundings.unknown, Surroundings.continueTarget, LoopContext.add, openHoles,
        Piece.openStop?, Piece.openStart?]
  | returnCall => exact yields_emit_grew _
  | call name =>
    refine Yields.bind (yields_reserve .call (.call (.procedure name)) rfl (fun _ h => by cases h)) fun hole t ht => .of_run rfl ?_
    obtain ⟨rfl, hwrote, hopen⟩ := ht
    refine ⟨hwrote.of_assembler rfl rfl rfl, ?_, fun c rest hc => ?_⟩
    · simp [hopen.calls, Action.pieces, Surroundings.unknown, Surroundings.callTarget, openHoles, Piece.openCall?]
    · simp [hopen.loops, hc, Action.pieces, Surroundings.unknown, Surroundings.callTarget, LoopContext.add, openHoles,
        Piece.openStop?, Piece.openStart?]
  | print source =>
    refine Yields.bind yields_get fun t t' ht => ?_
    obtain ⟨rfl, rfl⟩ := ht
    exact yields_emit_grew _
  | printText text => exact yields_printText text hroom
  | push r => exact yields_emit_grew _
  | pop r => exact yields_emit_grew _

end Compile

end RegisterCompiler
