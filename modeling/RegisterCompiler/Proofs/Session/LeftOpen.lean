import RegisterCompiler.Proofs.Faults
import RegisterCompiler.Proofs.Session.OpenHoles

/-!
# What statements leave open

In code with unknown surroundings the open jumps are those of the breaks and continues outside every loop (`stops_bodyPieces`,
`starts_bodyPieces`), and the open calls are those of the calls, wherever they stand (`calls_bodyPieces`). Once the surroundings
provide for all of these, every target is known (`known_bodyPieces`).
-/

namespace RegisterCompiler

/-- Nothing is kept open for a test that may be missing. -/
theorem closed_skipPieces (condition : Option Condition) (target : Nat) : ∀ p ∈ skipPieces condition target, p.Closed := by
  cases condition with
  | none => exact fun p hp => absurd hp List.not_mem_nil
  | some c => exact closed_testPieces c target

/-- Once its jumps are filled, the body of a loop has no jump left that belongs to a loop. -/
theorem open_settled (start stop : Nat) (pieces : List Piece) :
    ∀ p ∈ pieces.map (Piece.settleStart start ∘ Piece.settleStop stop), p.openStop? = none ∧ p.openStart? = none := by
  intro p hp
  obtain ⟨q, _, rfl⟩ := List.mem_map.1 hp
  cases q with
  | jump target => cases target <;> exact ⟨rfl, rfl⟩
  | _ => exact ⟨rfl, rfl⟩

/-! ## Jumps -/

/-- A way to pick the open jumps of one kind of action. -/
structure PicksJumps (pick : Piece → Option Position) (a : Action) : Prop where
  only : ∀ p : Piece, p.openStop? = none → p.openStart? = none → pick p = none
  action : ∀ intrinsics start position b,
    (Action.pieces intrinsics .unknown start position b).filterMap pick = if b = a then [position] else []

/-- Where nothing is kept open, no jump is picked. -/
theorem PicksJumps.closed {pick : Piece → Option Position} {a : Action} (h : PicksJumps pick a) {pieces : List Piece}
    (hc : ∀ p ∈ pieces, p.Closed) : pieces.filterMap pick = [] :=
  List.filterMap_eq_nil_iff.2 fun p hp => h.only p (hc p hp).1 (hc p hp).2.1

mutual

/-- The open jumps of a statement are those that stand outside of its loops. -/
theorem Statement.picked_core {pick : Piece → Option Position} {a : Action} (h : PicksJumps pick a) (intrinsics : Intrinsics)
    (start : Nat) (s : Statement) : (s.core intrinsics .unknown start).filterMap pick = s.outsideLoops a := by
  cases s with
  | action b guard position => exact h.action intrinsics start position b
  | loop condition body guard position =>
    have hskip := fun target => h.closed (closed_skipPieces condition target)
    have hbody : ∀ first stop (pieces : List Piece),
        (pieces.map (Piece.settleStart first ∘ Piece.settleStop stop)).filterMap pick = [] := by
      intro first stop pieces
      refine List.filterMap_eq_nil_iff.2 fun p hp => ?_
      obtain ⟨hstop, hstart⟩ := open_settled first stop pieces p hp
      exact h.only p hstop hstart
    have hjump : pick (.jump (.offset start)) = none := h.only _ rfl rfl
    simp only [Statement.core, ← map_bodyPieces (Surroundings.leads_inLoop _ _), List.filterMap_append, hskip, hbody]
    simp [hjump, Statement.outsideLoops]
  | branch condition thenBody elseBody guard position =>
    have htest := fun target => h.closed (closed_testPieces condition target)
    have hjump : ∀ n, pick (.jump (.offset n)) = none := fun n => h.only _ rfl rfl
    simp only [Statement.core, Statement.outsideLoops]
    split
    · rename_i hempty
      obtain rfl := List.isEmpty_iff.1 hempty
      simp [htest, picked_bodyPieces h, outsideLoops]
    · simp [htest, picked_bodyPieces h, hjump]

/-- The open jumps of an action are those of the actions outside every loop. -/
theorem picked_bodyPieces {pick : Piece → Option Position} {a : Action} (h : PicksJumps pick a) (intrinsics : Intrinsics)
    (start : Nat) (body : List Statement) : (bodyPieces intrinsics .unknown start body).filterMap pick = outsideLoops a body := by
  cases body with
  | nil => rfl
  | cons s rest =>
    simp [bodyPieces, outsideLoops, Statement.picked_core h, picked_bodyPieces h, h.closed (closed_skipPieces s.guard _)]

end

/-- The jumps open for the end of a loop are the breaks. -/
theorem picksJumps_openStop : PicksJumps Piece.openStop? .breakLoop := by
  have hclosed : ∀ {pieces : List Piece}, (∀ p ∈ pieces, p.Closed) → pieces.filterMap Piece.openStop? = [] :=
    fun h => List.filterMap_eq_nil_iff.2 fun p hp => (h p hp).1
  refine ⟨fun p h _ => h, fun intrinsics start position b => ?_⟩
  cases b with
  | update dest op source => exact hclosed (closed_plainPieces _)
  | print source => exact hclosed (closed_plainPieces _)
  | printText text => exact hclosed (closed_textPieces _ _ _)
  | _ => rfl

/-- The jumps open for the next round of a loop are the continues. -/
theorem picksJumps_openStart : PicksJumps Piece.openStart? .continueLoop := by
  have hclosed : ∀ {pieces : List Piece}, (∀ p ∈ pieces, p.Closed) → pieces.filterMap Piece.openStart? = [] :=
    fun h => List.filterMap_eq_nil_iff.2 fun p hp => (h p hp).2.1
  refine ⟨fun p _ h => h, fun intrinsics start position b => ?_⟩
  cases b with
  | update dest op source => exact hclosed (closed_plainPieces _)
  | print source => exact hclosed (closed_plainPieces _)
  | printText text => exact hclosed (closed_textPieces _ _ _)
  | _ => rfl

/-! ## Calls -/

/-- Where nothing is kept open, no call is. -/
theorem filterMap_openCall? {pieces : List Piece} (h : ∀ p ∈ pieces, p.Closed) : pieces.filterMap Piece.openCall? = [] :=
  List.filterMap_eq_nil_iff.2 fun p hp => (h p hp).2.2

mutual

/-- The open calls of a statement are those that it makes, in their order. -/
theorem Statement.calls_core (intrinsics : Intrinsics) (loop : Option (Nat × Nat)) (start : Nat) (s : Statement) :
    (s.core intrinsics ⟨loop, fun _ => none⟩ start).filterMap Piece.openCall? = s.calls := by
  cases s with
  | action a guard position =>
    cases a with
    | update dest op source => exact filterMap_openCall? (closed_plainPieces _)
    | print source => exact filterMap_openCall? (closed_plainPieces _)
    | printText text => exact filterMap_openCall? (closed_textPieces _ _ _)
    | _ => rfl
  | loop condition body guard position =>
    simp [Statement.core, Statement.calls, Surroundings.inLoop, filterMap_openCall? (closed_skipPieces condition _),
      calls_bodyPieces, Piece.openCall?]
  | branch condition thenBody elseBody guard position =>
    have hjump : ∀ n, Piece.openCall? (.jump (.offset n)) = none := fun n => rfl
    simp only [Statement.core, Statement.calls]
    split
    · rename_i hempty
      obtain rfl := List.isEmpty_iff.1 hempty
      simp [filterMap_openCall? (closed_testPieces condition _), calls_bodyPieces, bodyCalls]
    · simp [filterMap_openCall? (closed_testPieces condition _), calls_bodyPieces, hjump]

/-- The open calls are the calls, in order. -/
theorem calls_bodyPieces (intrinsics : Intrinsics) (loop : Option (Nat × Nat)) (start : Nat) (body : List Statement) :
    (bodyPieces intrinsics ⟨loop, fun _ => none⟩ start body).filterMap Piece.openCall? = bodyCalls body := by
  cases body with
  | nil => rfl
  | cons s rest =>
    simp [bodyPieces, bodyCalls, Statement.calls_core, calls_bodyPieces, filterMap_openCall? (closed_skipPieces s.guard _)]

end

/-- The open calls of procedures are those in their bodies. -/
theorem calls_proceduresPieces (intrinsics : Intrinsics) (start : Nat) (ps : List Procedure) :
    (proceduresPieces intrinsics .unknown start ps).filterMap Piece.openCall? = ps.flatMap fun p => bodyCalls p.body := by
  induction ps generalizing start with
  | nil => rfl
  | cons p rest ih =>
    have hbody : (bodyPieces intrinsics .unknown start p.body).filterMap Piece.openCall? = bodyCalls p.body :=
      calls_bodyPieces intrinsics none start p.body
    have hret : Piece.openCall? (.plain .ret) = none := rfl
    simp [proceduresPieces, Procedure.pieces, hbody, hret, ih]

/-- The one open call of the entry is that of the main procedure. -/
theorem calls_trampolinePieces : (trampolinePieces .unknown).filterMap Piece.openCall? = [Compile.mainName] := by
  have hcall : Piece.openCall? (.call (Surroundings.unknown.callTarget Compile.mainName)) = some Compile.mainName := rfl
  rw [trampolinePieces, List.filterMap_append, List.filterMap_cons_some hcall, filterMap_openCall? (closed_plainPieces _),
    filterMap_openCall? (closed_plainPieces _), List.nil_append]

/-! ## Known targets -/

/-- A piece whose target, if there is one, is an offset. -/
def Piece.Known (p : Piece) : Prop := ∀ target, p.target? = some target → ∃ n, target = .offset n

/-- A piece whose target is an offset is known. -/
theorem Piece.known_of_target {p : Piece} {n : Nat} (h : p.target? = some (.offset n)) : p.Known := by
  intro target ht
  rw [h] at ht
  exact ⟨n, (Option.some.inj ht).symm⟩

/-- Plain pieces have no target to be known. -/
theorem known_plainPieces (sequence : X64.Sequence) : ∀ p ∈ plainPieces sequence, p.Known := by
  intro p hp
  obtain ⟨i, _, rfl⟩ := List.mem_map.1 hp
  exact nofun

/-- The target of a test is known. -/
theorem known_testPieces (c : Condition) (target : Nat) : ∀ p ∈ c.testPieces target, p.Known := by
  intro p hp
  rcases List.mem_append.1 hp with hp | hp
  · exact known_plainPieces _ p hp
  · obtain rfl := List.mem_singleton.1 hp
    exact Piece.known_of_target rfl

/-- The target of a test that may be missing is known. -/
theorem known_skipPieces (condition : Option Condition) (target : Nat) : ∀ p ∈ skipPieces condition target, p.Known := by
  cases condition with
  | none => exact fun p hp => absurd hp List.not_mem_nil
  | some c => exact known_testPieces c target

/-- The targets in the code that prints a text are known. -/
theorem known_textPieces (intrinsics : Intrinsics) (start : Nat) (text : List UInt8) :
    ∀ p ∈ textPieces intrinsics start text, p.Known := by
  intro p hp
  simp only [textPieces, List.cons_append, List.mem_cons, List.mem_append] at hp
  rcases hp with rfl | rfl | hp | rfl | hp
  · exact Piece.known_of_target rfl
  · intro target ht
    cases ht
  · exact known_plainPieces _ p hp
  · exact Piece.known_of_target rfl
  · exact known_plainPieces _ p hp

/-- Surroundings that provide for breaks and continues at some positions and for calls of some names. -/
structure Surroundings.Provides (around : Surroundings) (stops starts : List Position) (calls : List String) : Prop where
  jumps : around.loop = none → stops = [] ∧ starts = []
  calls : ∀ name ∈ calls, ∃ n, around.procedure name = some n

namespace Surroundings.Provides

variable {around : Surroundings} {stops starts stops' starts' : List Position} {calls calls' : List String}

/-- What provides for two parts provides for the first one. -/
theorem left (h : around.Provides (stops ++ stops') (starts ++ starts') (calls ++ calls')) : around.Provides stops starts calls :=
  ⟨fun hl => ⟨(List.append_eq_nil_iff.1 (h.jumps hl).1).1, (List.append_eq_nil_iff.1 (h.jumps hl).2).1⟩,
    fun name hn => h.calls name (List.mem_append_left _ hn)⟩

/-- What provides for two parts provides for the second one. -/
theorem right (h : around.Provides (stops ++ stops') (starts ++ starts') (calls ++ calls')) : around.Provides stops' starts' calls' :=
  ⟨fun hl => ⟨(List.append_eq_nil_iff.1 (h.jumps hl).1).2, (List.append_eq_nil_iff.1 (h.jumps hl).2).2⟩,
    fun name hn => h.calls name (List.mem_append_right _ hn)⟩

/-- A loop provides for every break and continue. -/
theorem inLoop (h : around.Provides stops starts calls) (start stop : Nat) :
    (around.inLoop start stop).Provides stops' starts' calls := ⟨nofun, h.calls⟩

end Surroundings.Provides

/-- The targets of an action are known where they are provided for. -/
theorem Action.known_pieces {around : Surroundings} (intrinsics : Intrinsics) (start : Nat) (a : Action) (guard : Option Condition)
    (position : Position)
    (h : around.Provides ((Statement.action a guard position).outsideLoops .breakLoop)
      ((Statement.action a guard position).outsideLoops .continueLoop) (Statement.action a guard position).calls) :
    ∀ p ∈ a.pieces intrinsics around start position, p.Known := by
  cases a with
  | assign dest source => exact known_plainPieces [_]
  | update dest op source => exact known_plainPieces _
  | compute dest op lhs rhs => exact fun p hp => absurd hp List.not_mem_nil
  | breakLoop =>
    intro p hp
    obtain rfl := List.mem_singleton.1 hp
    cases hl : around.loop with
    | none => exact absurd (h.jumps hl).1 (by simp [Statement.outsideLoops])
    | some l => exact Piece.known_of_target (by simp [Piece.target?, Surroundings.breakTarget, hl]; rfl)
  | continueLoop =>
    intro p hp
    obtain rfl := List.mem_singleton.1 hp
    cases hl : around.loop with
    | none => exact absurd (h.jumps hl).2 (by simp [Statement.outsideLoops])
    | some l => exact Piece.known_of_target (by simp [Piece.target?, Surroundings.continueTarget, hl]; rfl)
  | returnCall => exact known_plainPieces [_]
  | call name =>
    intro p hp
    obtain rfl := List.mem_singleton.1 hp
    obtain ⟨n, hn⟩ := h.calls name (by simp [Statement.calls])
    exact Piece.known_of_target (by simp [Piece.target?, Surroundings.callTarget, hn]; rfl)
  | print source => exact known_plainPieces _
  | printText text => exact known_textPieces _ _ _
  | push r => exact known_plainPieces [_]
  | pop r => exact known_plainPieces [_]

mutual

/-- The targets of a statement are known where they are provided for. -/
theorem Statement.known_core {around : Surroundings} (intrinsics : Intrinsics) (start : Nat) (s : Statement)
    (h : around.Provides (s.outsideLoops .breakLoop) (s.outsideLoops .continueLoop) s.calls) :
    ∀ p ∈ s.core intrinsics around start, p.Known := by
  intro p hp
  cases s with
  | action a guard position => exact Action.known_pieces intrinsics start a guard position h p hp
  | loop condition body guard position =>
    simp only [Statement.core, List.mem_append, List.mem_singleton] at hp
    rcases hp with (hp | hp) | rfl
    · exact known_skipPieces _ _ p hp
    · exact known_bodyPieces intrinsics _ body (h.inLoop _ _) p hp
    · exact Piece.known_of_target rfl
  | branch condition thenBody elseBody guard position =>
    simp only [Statement.core] at hp
    split at hp
    · rcases List.mem_append.1 hp with hp | hp
      · exact known_testPieces _ _ p hp
      · exact known_bodyPieces intrinsics _ thenBody h.left p hp
    · simp only [List.mem_append, List.mem_cons] at hp
      rcases hp with (hp | hp) | rfl | hp
      · exact known_testPieces _ _ p hp
      · exact known_bodyPieces intrinsics _ thenBody h.left p hp
      · exact Piece.known_of_target rfl
      · exact known_bodyPieces intrinsics _ elseBody h.right p hp

/-- In surroundings that provide for everything every target is known. -/
theorem known_bodyPieces {around : Surroundings} (intrinsics : Intrinsics) (start : Nat) (body : List Statement)
    (h : around.Provides (outsideLoops .breakLoop body) (outsideLoops .continueLoop body) (bodyCalls body)) :
    ∀ p ∈ bodyPieces intrinsics around start body, p.Known := by
  intro p hp
  cases body with
  | nil => exact absurd hp List.not_mem_nil
  | cons s rest =>
    rw [bodyPieces_cons, Statement.pieces] at hp
    rcases List.mem_append.1 hp with hp | hp
    · rcases List.mem_append.1 hp with hp | hp
      · exact known_skipPieces _ _ p hp
      · exact Statement.known_core intrinsics _ s h.left p hp
    · exact known_bodyPieces intrinsics _ rest h.right p hp

end

end RegisterCompiler
