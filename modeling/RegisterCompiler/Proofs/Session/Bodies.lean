import RegisterCompiler.Proofs.Session.Actions
import RegisterCompiler.Proofs.Session.LeftOpen

/-!
# Compiling statements

Statements without faults make a session write the pieces of the two passes, with the jumps out of the loops around them and the
calls left open (`yields_body`). The proof follows the statements: a loop and a branch write holes first, then their bodies, and
fill the holes at the end, when the offsets are known that the second pass knew from the first one.
-/

namespace RegisterCompiler

open X64 (Assembler Hole HoleKind)

namespace Compile

variable {total : Nat} {s base : Session}

/-- Filling the test of a loop, if it has one. -/
theorem yields_forM_landSkip {behind : List Piece} {condition : Option Condition} {target : Nat}
    (h : base.Wrote s (openSkip condition ++ behind)) (htarget : target ≤ s.offset) (hroom : s.offset ≤ total) :
    Yields total ((condition.map (skipBehind base [])).forM fun skip => landSkip skip target) s [] fun _ after =>
      base.Wrote after (skipPieces condition target ++ behind) ∧ s.SameOpen after := by
  cases condition with
  | none => exact .pure ⟨h, .refl s⟩
  | some c => exact yields_landSkip [] h htarget hroom

/-- The test has as many pieces before its target is known. -/
theorem length_openTest (c : Condition) (target : Nat) : (openTest c).length = (c.testPieces target).length := by
  simp [openTest, Condition.testPieces]

/-- A test that may be missing has as many pieces before its target is known. -/
theorem length_openSkip (condition : Option Condition) (target : Nat) :
    (openSkip condition).length = (skipPieces condition target).length := by
  cases condition with
  | none => rfl
  | some c => exact length_openTest c target

/-- A test that may be missing has its size before its target is known. -/
theorem piecesSize_openSkip (condition : Option Condition) : piecesSize (openSkip condition) = skipSize condition := by
  cases condition with
  | none => rfl
  | some c => exact piecesSize_openTest c

/-- A call is open before and after the jumps of its loop are filled. -/
theorem openCall?_settled (start stop : Nat) (p : Piece) :
    ((Piece.settleStart start ∘ Piece.settleStop stop) p).openCall? = p.openCall? := by
  cases p with
  | jump target => cases target <;> rfl
  | _ => rfl

/-- Settling the jumps out of a loop leaves those to its next round open. -/
theorem openStart?_settleStop (stop : Nat) (p : Piece) : (p.settleStop stop).openStart? = p.openStart? := by
  cases p with
  | jump target => cases target <;> rfl
  | _ => rfl

/-- Filling the jumps of a loop that are picked. -/
theorem yields_forM_jumps (pick : Piece → Option Position) (settle : Piece → Piece) {before body behind : List Piece} {n : Nat}
    (hsize : ∀ p, (settle p).size = p.size) (hkeep : ∀ p, pick p = none → settle p = p)
    (hsettle : ∀ p position, pick p = some position →
      ∃ target, p = .jump target ∧ (∀ m, target ≠ .offset m) ∧ settle p = .jump (.offset n))
    (h : base.Wrote s (before ++ body ++ behind)) (hn : n ≤ s.offset) (hroom : s.offset ≤ total) :
    Yields total ((openHoles pick (base.count + before.length) (base.offset + piecesSize before) body).forM
      fun jump => patch fun a => a.patchJump jump.1 n) s [] fun _ after =>
        base.Wrote after (before ++ body.map settle ++ behind) ∧ s.SameOpen after := by
  have hnone : ∀ positions : List Position, positions.flatMap (fun _ => ([] : List CompileError)) = [] :=
    fun positions => List.flatMap_eq_nil_iff.2 fun _ _ => rfl
  rw [← hnone (body.filterMap pick)]
  refine yields_forM_openHoles total pick _ _ settle hsize hkeep ?_ body before behind s h rfl
  intro t before p position behind ht hoffset hp
  obtain ⟨target, rfl, hopen, hs⟩ := hsettle p position hp
  rw [hs]
  exact yields_patchJump before target n ht hopen (hoffset ▸ hn) (hoffset ▸ hroom)

/-- Filling the jumps out of a loop. -/
theorem yields_forM_stops {before body behind : List Piece} {stop : Nat} (h : base.Wrote s (before ++ body ++ behind))
    (hstop : stop ≤ s.offset) (hroom : s.offset ≤ total) :
    Yields total ((openHoles Piece.openStop? (base.count + before.length) (base.offset + piecesSize before) body).forM
      fun jump => patch fun a => a.patchJump jump.1 stop) s [] fun _ after =>
        base.Wrote after (before ++ body.map (Piece.settleStop stop) ++ behind) ∧ s.SameOpen after := by
  refine yields_forM_jumps _ _ (Piece.size_settleStop stop) (fun p hp => ?_) (fun p position hp => ?_) h hstop hroom
  · unfold Piece.settleStop
    split
    · cases hp
    · rfl
  · unfold Piece.openStop? at hp
    split at hp
    · exact ⟨_, rfl, by simp, rfl⟩
    · cases hp

/-- Filling the jumps to the next round of a loop. -/
theorem yields_forM_starts {before body behind : List Piece} {start : Nat} (h : base.Wrote s (before ++ body ++ behind))
    (hstart : start ≤ s.offset) (hroom : s.offset ≤ total) :
    Yields total ((openHoles Piece.openStart? (base.count + before.length) (base.offset + piecesSize before) body).forM
      fun jump => patch fun a => a.patchJump jump.1 start) s [] fun _ after =>
        base.Wrote after (before ++ body.map (Piece.settleStart start) ++ behind) ∧ s.SameOpen after := by
  refine yields_forM_jumps _ _ (Piece.size_settleStart start) (fun p hp => ?_) (fun p position hp => ?_) h hstart hroom
  · unfold Piece.settleStart
    split
    · cases hp
    · rfl
  · unfold Piece.openStart? at hp
    split at hp
    · exact ⟨_, rfl, by simp, rfl⟩
    · cases hp

/-- When a loop has ended, the jumps of its body and then the branch of its test are filled. -/
theorem yields_endLoop {condition : Option Condition} {pieces behind : List Piece} {start stop : Nat}
    (h : base.Wrote s (openSkip condition ++ pieces ++ behind)) (hstart : start ≤ s.offset) (hstop : stop ≤ s.offset)
    (hroom : s.offset ≤ total) :
    Yields total (do
      let context := ({} : LoopContext).add (base.count + (openSkip condition).length)
        (base.offset + piecesSize (openSkip condition)) pieces
      context.breaks.forM fun jump => patch fun a => a.patchJump jump.1 stop
      context.continues.forM fun jump => patch fun a => a.patchJump jump.1 start
      (condition.map (skipBehind base [])).forM fun skip => landSkip skip stop) s [] fun _ after =>
      base.Wrote after (skipPieces condition stop ++ pieces.map (Piece.settleStart start ∘ Piece.settleStop stop) ++ behind) ∧
        s.SameOpen after := by
  refine Yields.bind_right (yields_forM_stops h hstop hroom) fun _ t ht => ?_
  have ht' : t.offset = s.offset := by
    rw [ht.1.offset, h.offset]
    simp [piecesSize_map (Piece.size_settleStop stop)]
  have hstarts := yields_forM_starts ht.1 (ht' ▸ hstart) (ht' ▸ hroom)
  rw [openHoles_map (openStart?_settleStop stop) (Piece.size_settleStop stop)] at hstarts
  refine Yields.bind_right hstarts fun _ u hu => ?_
  have hu' : u.offset = s.offset := by
    rw [hu.1.offset, h.offset, piecesSize_append, piecesSize_append, piecesSize_map (Piece.size_settleStart start),
      piecesSize_map (Piece.size_settleStop stop), ← piecesSize_append, ← piecesSize_append]
  rw [List.append_assoc] at hu
  refine (yields_forM_landSkip hu.1 (hu' ▸ hstop) (hu' ▸ hroom)).mono fun _ after ha => ?_
  rw [List.map_map, ← List.append_assoc] at ha
  exact ⟨ha.1, ht.2.trans (hu.2.trans ha.2)⟩

/-- Statements begun where there is room for them write their pieces if they have no faults. -/
def Writes (total : Nat) (intrinsics : Intrinsics) (statements : List Statement) : Prop :=
  ∀ t : Session, t.intrinsics = intrinsics → t.offset + bodySize intrinsics statements ≤ total →
    Yields total (body statements) t (bodyFaults statements) fun _ after =>
      t.Grew after (bodyPieces intrinsics .unknown t.offset statements)

/-- A loop writes its test, its body and a jump back, and then fills the jumps of its body and the branch of its test. -/
theorem yields_loop (condition : Option Condition) (statements : List Statement)
    (hroom : s.offset + (skipSize condition + bodySize s.intrinsics statements + 5) ≤ total)
    (hbody : Writes total s.intrinsics statements) (guard : Option Condition) (position : Position) :
    Yields total (do
      let start ← offset
      let exit ← condition.mapM skipUnless
      let context ← inContext (body statements)
      jumpBack start
      let stop ← offset
      context.breaks.forM fun jump => patch fun a => a.patchJump jump.1 stop
      context.continues.forM fun jump => patch fun a => a.patchJump jump.1 start
      exit.forM fun skip => landSkip skip stop) s (conditionFaults condition ++ bodyFaults statements) fun _ after =>
      s.Grew after ((Statement.loop condition statements guard position).core s.intrinsics .unknown s.offset) := by
  refine Yields.bind_right yields_offset fun start s' hs => ?_
  obtain ⟨rfl, rfl⟩ := hs
  refine Yields.bind (yields_mapM_skipUnless condition) fun exit t ht => ?_
  obtain ⟨rfl, htest, hopen⟩ := ht
  have ht : t.offset = s'.offset + skipSize condition := by rw [htest.offset, piecesSize_openSkip]
  obtain ⟨pieces, hpieces⟩ : ∃ pieces, pieces = bodyPieces s'.intrinsics .unknown t.offset statements := ⟨_, rfl⟩
  -- the body begins with an empty context, so the jumps it leaves there are those to be filled
  have hin : Yields total (body statements) { t with loops := {} :: t.loops } (bodyFaults statements) fun _ after =>
      Session.Grew { t with loops := {} :: t.loops } after pieces := by
    rw [hpieces]
    exact hbody _ htest.intrinsics (by show t.offset + _ ≤ _; omega)
  refine Yields.bind_left (yields_inContext hin) fun context u hu => ?_
  obtain ⟨rfl, hbodyWrote, hcalls, hloops⟩ := hu
  have hu : u.offset = t.offset + bodySize s'.intrinsics statements := by
    rw [hbodyWrote.offset, hpieces, piecesSize_bodyPieces]
  refine Yields.bind (yields_jumpBack (by omega) (by omega)) fun _ v hv => ?_
  obtain ⟨hback, hsame⟩ := hv
  have hv : v.offset = u.offset + 5 := hback.offset
  refine Yields.bind yields_offset fun stop v' hv' => ?_
  obtain ⟨rfl, rfl⟩ := hv'
  have hend := yields_endLoop ((htest.trans hbodyWrote).trans hback) (by omega : s'.offset ≤ v'.offset) (Nat.le_refl _)
    (by omega : v'.offset ≤ total)
  rw [← htest.count, ← htest.offset] at hend
  refine hend.mono fun _ after ha => ?_
  have hstop : v'.offset = s'.offset + skipSize condition + bodySize s'.intrinsics statements + 5 := by omega
  -- settled at both ends, the open pieces of the body are those of the loop
  have hcore : (Statement.loop condition statements guard position).core s'.intrinsics .unknown s'.offset =
      skipPieces condition v'.offset ++ pieces.map (Piece.settleStart s'.offset ∘ Piece.settleStop v'.offset) ++
        [.jump (.offset s'.offset)] := by
    rw [hpieces, map_bodyPieces (Surroundings.leads_inLoop _ _), ht, hstop]
    rfl
  rw [hcore]
  have hskip := closed_skipPieces condition v'.offset
  have hjump : ∀ p ∈ [Piece.jump (.offset s'.offset)], p.Closed := by
    intro p hp
    obtain rfl := List.mem_singleton.1 hp
    exact ⟨rfl, rfl, rfl⟩
  refine ⟨ha.1, ?_, fun c rest hc => ?_⟩
  · rw [ha.2.calls, hsame.calls, hcalls, hopen.calls, openHoles_middle (fun p hp => (hskip p hp).2.2)
      (fun p hp => (hjump p hp).2.2), openHoles_map (openCall?_settled _ _) ?_, ← length_openSkip, ← htest.count,
      piecesSize_skipPieces, ← ht]
    intro p
    exact (Piece.size_settleStart _ _).trans (Piece.size_settleStop _ _)
  · have hbody := open_settled s'.offset v'.offset pieces
    rw [ha.2.loops, hsame.loops, hloops, hopen.loops, hc, LoopContext.add, openHoles_middle (fun p hp => (hskip p hp).1)
      (fun p hp => (hjump p hp).1), openHoles_middle (fun p hp => (hskip p hp).2.1) (fun p hp => (hjump p hp).2.1),
      openHoles_eq_nil (fun p hp => (hbody p hp).1), openHoles_eq_nil (fun p hp => (hbody p hp).2), List.append_nil,
      List.append_nil]

/-- A branch with a second body writes a jump over it between the bodies, and then fills this jump and the branch of its test. -/
theorem yields_longBranch (condition : Condition) (thenBody elseBody : List Statement) {first behind stop : Nat}
    (hfirst : first = s.offset + condition.testSize) (hbehind : behind = first + bodySize s.intrinsics thenBody + 5)
    (hstop : stop = behind + bodySize s.intrinsics elseBody) (hroom : stop ≤ total)
    (hthen : Writes total s.intrinsics thenBody) (helse : Writes total s.intrinsics elseBody) :
    Yields total (do
      let skip ← skipUnless condition
      body thenBody
      let overElse ← reserve .jump
      let elseStart ← offset
      body elseBody
      let stop ← offset
      landSkip skip elseStart
      patch fun a => a.patchJump overElse stop) s (condition.faults ++ bodyFaults thenBody ++ bodyFaults elseBody) fun _ after =>
      s.Grew after (condition.testPieces behind ++ bodyPieces s.intrinsics .unknown first thenBody ++
        .jump (.offset stop) :: bodyPieces s.intrinsics .unknown behind elseBody) := by
  rw [List.append_assoc]
  refine Yields.bind (yields_skipUnless condition) fun skip t ht => ?_
  obtain ⟨rfl, htest, hopen⟩ := ht
  have ht : t.offset = first := by rw [htest.offset, piecesSize_openTest, hfirst]
  refine Yields.bind (hthen t htest.intrinsics (by omega)) fun _ u hu => ?_
  rw [ht] at hu
  have hu' : u.offset + 5 = behind := by rw [hu.wrote.offset, piecesSize_bodyPieces, ht, hbehind]
  refine Yields.bind_right (yields_reserve .jump (.jump .later) rfl nofun) fun hole v hv => ?_
  obtain ⟨rfl, hover, hopen'⟩ := hv
  have hv : v.offset = behind := hover.offset.trans hu'
  refine Yields.bind_right yields_offset fun elseStart v' hv' => ?_
  obtain ⟨rfl, rfl⟩ := hv'
  have hintrinsics : v'.intrinsics = s.intrinsics := by rw [hover.intrinsics, hu.wrote.intrinsics, htest.intrinsics]
  refine Yields.bind_left (helse v' hintrinsics (by omega)) fun _ w hw => ?_
  rw [hv] at hw ⊢
  refine Yields.bind_right yields_offset fun stop' x hx => ?_
  obtain ⟨rfl, rfl⟩ := hx
  have hx : x.offset = stop := by rw [hw.wrote.offset, piecesSize_bodyPieces, hv, hstop]
  rw [hx]
  have hclosed : ∀ p ∈ [Piece.jump .later], p.Closed := by
    intro p hp
    obtain rfl := List.mem_singleton.1 hp
    exact ⟨rfl, rfl, rfl⟩
  -- test, first body, jump and second body are written; two holes are left to fill
  have hgrew := (Session.Grew.of_closed htest hopen (closed_openTest condition)).trans
    (hu.trans ((Session.Grew.of_closed hover hopen' hclosed).trans hw))
  refine Yields.bind_right (yields_landSkip [] hgrew.wrote (by omega) (by omega)) fun _ y hy => ?_
  have hy' : y.offset = stop := by
    rw [hy.1.offset, ← hx, hgrew.wrote.offset]
    simp [piecesSize_openTest]
  have hfill := yields_patchJump (condition.testPieces behind ++ bodyPieces s.intrinsics .unknown first thenBody) .later stop
    (by simpa using hy.1) nofun (Nat.le_of_eq hy'.symm) (hy' ▸ hroom)
  rw [List.length_append, ← length_openTest, ← Nat.add_assoc, ← htest.count, ← hu.wrote.count, piecesSize_append,
    piecesSize_testPieces, piecesSize_bodyPieces, ← Nat.add_assoc, ← hfirst, show first + bodySize s.intrinsics thenBody =
      u.offset by omega] at hfill
  refine hfill.mono fun _ after ha => hgrew.exchange ha.1 (hy.2.trans ha.2) ?_
  rw [List.map_append, outline_openTest condition behind, ← List.map_append]
  simp [Piece.outline, Piece.size, Piece.openStop?, Piece.openStart?, Piece.openCall?]

mutual

/-- A statement without faults writes its pieces, with the jumps out of the loops around it and its calls left open. -/
theorem yields_statement (st : Statement) (s : Session) (hroom : s.offset + st.size s.intrinsics ≤ total) :
    Yields total (statement st) s (conditionFaults st.guard ++ st.coreFaults) fun _ after =>
      s.Grew after (st.pieces s.intrinsics .unknown s.offset) := by
  unfold Statement.size at hroom
  unfold Statement.pieces Statement.size
  rw [← Nat.add_assoc] at hroom ⊢
  cases st with
  | action a guard position =>
    refine yields_guarded guard _ (fun o => Statement.piecesSize_core _ _ o _) hroom fun t hi hloops ht => ?_
    rw [← hi] at ht ⊢
    exact yields_action position a ht
  | loop condition statements guard position =>
    refine yields_guarded guard _ (fun o => Statement.piecesSize_core _ _ o _) hroom fun t hi hloops ht => ?_
    rw [← hi] at ht ⊢
    exact yields_loop condition statements ht (writes_body statements t.intrinsics) guard position
  | branch condition thenBody elseBody guard position =>
    refine yields_guarded guard _ (fun o => Statement.piecesSize_core _ _ o _) hroom fun t hi hloops ht => ?_
    rw [← hi] at ht ⊢
    rw [Statement.coreSize] at ht
    cases elseBody with
    | nil =>
      rw [Statement.coreFaults, bodyFaults, List.append_nil]
      exact yields_guarded (some condition) _ (fun o => piecesSize_bodyPieces _ _ o _) (by simpa [skipSize, Nat.add_assoc] using ht)
        fun u hu _ hroom => writes_body thenBody t.intrinsics u hu hroom
    | cons first rest =>
      exact yields_longBranch condition thenBody (first :: rest) rfl rfl rfl (by simpa [Nat.add_assoc] using ht)
        (writes_body thenBody t.intrinsics)
        (writes_body (first :: rest) t.intrinsics)

/-- Statements without faults write their pieces one after another. -/
theorem writes_body (statements : List Statement) (intrinsics : Intrinsics) : Writes total intrinsics statements := by
  intro s hi hroom
  cases statements with
  | nil => exact .pure (.refl s)
  | cons st rest =>
    rw [bodySize_cons, ← Nat.add_assoc] at hroom
    rw [bodyFaults, bodyPieces_cons]
    rw [← hi] at hroom ⊢
    refine Yields.bind ((yields_statement st s (by omega)).placedAt st.position) fun _ t ht => ?_
    have hoffset : t.offset = s.offset + st.size s.intrinsics := by rw [ht.wrote.offset, Statement.piecesSize_pieces]
    rw [← hoffset] at hroom ⊢
    exact (writes_body rest s.intrinsics t ht.wrote.intrinsics hroom).mono fun _ after ha => ht.trans ha

end

end Compile

end RegisterCompiler
