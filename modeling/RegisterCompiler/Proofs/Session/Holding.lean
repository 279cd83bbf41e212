import RegisterCompiler.Proofs.ControlFlow.Targets
import RegisterCompiler.Proofs.Session.Account
import RegisterCompiler.Proofs.Session.Bodies

/-!
# Who holds the handles of a step

`Compile.Uses takes step gives` is the contract of a step that is given the handles it takes and hands on those it gives: it gets from
one account to the other by moves, whatever else is loose, and if it fails it drops what it has. There is one rule for each way
steps are composed and one lemma for each part of the compiler; a statement takes no handles and gives none (`uses_statement`).
-/

namespace RegisterCompiler

open Account (Move)
open X64 (Assembler AssemblyError Filling Handle Hole HoleKind)

namespace Compile

variable {α β : Type} {takes : Multiset Handle} {step : Compile α} {gives : α → Multiset Handle}

/-- A step takes handles and gives handles. -/
def Uses (takes : Multiset Handle) (step : Compile α) (gives : α → Multiset Handle) : Prop :=
  ∀ (s : Session) (frame : Multiset Handle),
    match step.run s with
    | (.ok a, after) => Account.Path ⟨s, takes + frame⟩ ⟨after, gives a + frame⟩
    | (.error _, after) => ∃ dropped, Account.Path ⟨s, takes + frame⟩ ⟨after, dropped + frame⟩

/-! ## Composing steps -/

/-- A step that only gives a result gives the handles it takes. -/
theorem Uses.pure {a : α} : Uses (gives a) (Pure.pure a) gives := fun _ _ => .refl

/-- A step that fails drops whatever it takes. -/
theorem Uses.throw {e : CompileError} : Uses takes (throw e : Compile α) gives := fun _ _ => ⟨takes, .refl⟩

/-- A step leaves the handles alone that it is not given. -/
theorem Uses.frame (h : Uses takes step gives) (more : Multiset Handle) :
    Uses (takes + more) step fun a => gives a + more := by
  intro s frame
  have hs := h s (more + frame)
  rcases hr : step.run s with ⟨e | a, after⟩
  · rw [hr] at hs
    obtain ⟨dropped, hpath⟩ := hs
    refine ⟨dropped + more, ?_⟩
    rwa [add_assoc, add_assoc]
  · rw [hr] at hs
    simp only [add_assoc]
    exact hs

/-- The first step hands its handles on to the second one. -/
theorem Uses.bind {f : α → Compile β} {gives' : β → Multiset Handle} (h : Uses takes step gives)
    (hf : ∀ a, Uses (gives a) (f a) gives') : Uses takes (step >>= f) gives' := by
  intro s frame
  have hs := h s frame
  rw [run_bind]
  rcases hr : step.run s with ⟨e | a, after⟩
  · rw [hr] at hs
    exact hs
  · rw [hr] at hs
    have ha := hf a after frame
    simp only
    rcases hr' : (f a).run after with ⟨e | b, later⟩
    · rw [hr'] at ha
      obtain ⟨dropped, hpath⟩ := ha
      exact ⟨dropped, hs.trans hpath⟩
    · rw [hr'] at ha
      exact hs.trans ha

/-- The second step is also given the handles that the first one leaves alone. -/
theorem Uses.bind_framed {f : α → Compile β} {gives' : β → Multiset Handle} (h : Uses 0 step gives)
    (hf : ∀ a, Uses (gives a + takes) (f a) gives') : Uses takes (step >>= f) gives' := by
  have := (h.frame takes).bind hf
  rwa [zero_add] at this

/-- Placing the error of a step does not change what it uses. -/
theorem Uses.placedAt (position : Position) (h : Uses takes step gives) : Uses takes (placedAt position step) gives := by
  intro s frame
  have hs := h s frame
  rw [run_placedAt]
  rcases hr : step.run s with ⟨e | a, after⟩ <;> rw [hr] at hs <;> exact hs

/-- Discarding the result of a step does not change what it uses, if it gives no handles. -/
theorem Uses.discard (h : Uses takes step fun _ => 0) : Uses takes (discard step) fun _ => 0 :=
  h.bind fun _ => .pure

/-- A step for each of some holes uses the handles of all of them. -/
theorem Uses.forM {kind : HoleKind} {holes : List (Hole kind × α)} {f : Hole kind × α → Compile Unit}
    (h : ∀ p, Uses {p.1.handle} (f p) fun _ => 0) : Uses (handlesOf holes) (holes.forM f) fun _ => 0 := by
  induction holes with
  | nil => exact .pure
  | cons p rest ih =>
    rw [handlesOf_cons, ← Multiset.singleton_add]
    refine ((h p).frame _).bind fun _ => ?_
    rw [zero_add]
    exact ih

/-- A new context holds nothing. -/
theorem path_openContext (s : Session) (loose : Multiset Handle) :
    Account.Path ⟨s, loose⟩ ⟨{ s with loops := {} :: s.loops }, loose⟩ := .single (.pass s _ _ _ (by simp))

/-- The jumps that the innermost context has become loose as it goes. -/
theorem path_closeContext (s : Session) (loose : Multiset Handle) :
    Account.Path ⟨s, loose⟩ ⟨{ s with loops := s.loops.tail }, handlesOf (s.loops.headD {}).jumps + loose⟩ := by
  refine .single (.pass s _ _ _ ?_)
  rw [heldJumps_eq s.loops, handlesOf_append]
  ac_rfl

/-- The jumps that a context has when its step ends come to the step around it. -/
theorem Uses.inContext {step : Compile Unit} (h : Uses 0 step fun _ => 0) :
    Uses 0 (inContext step) fun context => handlesOf context.jumps := by
  intro s frame
  have hopen := path_openContext s (0 + frame)
  have hs := h { s with loops := {} :: s.loops } frame
  rw [run_inContext]
  rcases hr : step.run { s with loops := {} :: s.loops } with ⟨e | a, after⟩
  · rw [hr] at hs
    obtain ⟨dropped, hpath⟩ := hs
    refine ⟨handlesOf (after.loops.headD {}).jumps + dropped, (hopen.trans hpath).trans ?_⟩
    rw [add_assoc]
    exact path_closeContext after _
  · rw [hr] at hs
    refine (hopen.trans hs).trans ?_
    rw [zero_add]
    exact path_closeContext after frame

/-! ## Writing and filling -/

theorem uses_offset : Uses 0 offset fun _ => 0 := fun _ _ => .refl

theorem uses_get : Uses 0 get fun _ => 0 := fun _ _ => .refl

theorem uses_emit {sequence : X64.Sequence} (h : ProperSequence sequence) : Uses 0 (emit sequence) fun _ => 0 := by
  intro s frame
  show Account.Path ⟨s, 0 + frame⟩ ⟨{ s with assembler := s.assembler.emitAll sequence }, 0 + frame⟩
  generalize 0 + frame = loose
  unfold X64.Assembler.emitAll
  induction sequence generalizing s with
  | nil => exact .refl
  | cons i rest ih =>
    have hi : ∀ d, X64.Item.instruction i ≠ .instruction (.call d) := by
      intro d hd
      have := (h i (.head _)).2
      rw [X64.Item.instruction.inj hd] at this
      cases this
    exact .head (.write s loose (.instruction i) rfl hi)
      (ih (fun j hj => h j (.tail _ hj)) { s with assembler := s.assembler.emit i })

theorem uses_embed (bytes : List UInt8) : Uses 0 (embed bytes) fun _ => 0 :=
  fun s frame => .single (.write s (0 + frame) (.data bytes) rfl fun _ => by simp)

/-- Reserving a hole gives its handle. -/
theorem uses_reserve (kind : HoleKind) : Uses 0 (reserve kind) fun hole => {hole.handle} := by
  intro s frame
  have := Move.reserve s frame kind
  rw [← Multiset.singleton_add] at this
  rw [zero_add]
  exact .single this

/-- The code is changed by a step that may be refused. -/
theorem uses_patch {change : Assembler → Except AssemblyError Assembler}
    (h : ∀ (s : Session) a loose, change s.assembler = .ok a → Move ⟨s, takes + loose⟩ ⟨{ s with assembler := a }, loose⟩) :
    Uses takes (patch change) fun _ => 0 := by
  intro s frame
  rw [run_patch]
  rcases hc : change s.assembler with e | a
  · exact ⟨takes, .refl⟩
  · simp only
    rw [zero_add]
    exact .single (h s a frame hc)

/-- A hole is filled that is not one for a call. -/
theorem uses_fill {kind : HoleKind} (hole : Hole kind) (target : Nat) (filling : Filling kind) (h : kind ≠ .call) :
    Uses {hole.handle} (patch fun a => filling.patch a hole target) fun _ => 0 := by
  refine uses_patch fun s a loose ha => ?_
  rw [Multiset.singleton_add]
  exact .fill s loose hole target filling a ha fun hk => absurd hk h

/-- Filling a jump takes its handle. -/
theorem uses_patchJump (hole : Hole .jump) (target : Nat) :
    Uses {hole.handle} (patch fun a => a.patchJump hole target) fun _ => 0 := uses_fill hole target .jump (by simp)

/-- Landing a skip takes the handle of its branch. -/
theorem uses_landSkip (skip : Hole .branch × Comparison) (target : Nat) :
    Uses {skip.1.handle} (landSkip skip target) fun _ => 0 := uses_fill skip.1 target (.branch skip.2 true) (by simp)

theorem uses_jumpBack (target : Nat) : Uses 0 (jumpBack target) fun _ => 0 :=
  (uses_reserve .jump).bind fun hole => uses_patchJump hole target

theorem uses_emitAddress (dest : X64.Reg) (target : Nat) : Uses 0 (emitAddress dest target) fun _ => 0 := by
  refine uses_patch fun s a loose ha => ?_
  rw [zero_add]
  split at ha
  · rename_i result hresult
    obtain rfl := ha
    obtain ⟨d, -, rfl⟩ := X64.emitAddress_eq_ok hresult
    exact .write s loose (.instruction (.address dest d)) rfl fun _ => by simp
  · cases ha

/-! ## Statements -/

/-- The branch of a test is open behind the test. -/
theorem uses_skipUnless (c : Condition) : Uses 0 (skipUnless c) fun skip => {skip.1.handle} := by
  unfold skipUnless
  rcases c.compare_cases with ⟨-, hc⟩ | ⟨-, hc⟩
  · rw [hc]
    exact .throw
  · rw [hc]
    exact (uses_emit (properSequence_compareCode c)).bind fun _ => (uses_reserve .branch).bind fun _ => .pure

/-- The test of a loop, if it has one, gives the handle of its branch. -/
theorem uses_mapM_skipUnless (condition : Option Condition) :
    Uses 0 (condition.mapM skipUnless) fun exit => handlesOf exit.toList := by
  cases condition with
  | none => exact .pure
  | some c => exact (uses_skipUnless c).bind fun skip => .pure

/-- Landing the test of a loop, if it has one, takes the handle of its branch. -/
theorem uses_forM_landSkip (exit : Option (Hole .branch × Comparison)) (target : Nat) :
    Uses (handlesOf exit.toList) (exit.forM fun skip => landSkip skip target) fun _ => 0 := by
  cases exit with
  | none => exact .pure
  | some skip => exact uses_landSkip skip target

/-- Filling jumps takes their handles. -/
theorem uses_forM_patchJump (jumps : List (Hole .jump × Position)) (target : Nat) :
    Uses (handlesOf jumps) (jumps.forM fun jump => patch fun a => a.patchJump jump.1 target) fun _ => 0 :=
  Uses.forM fun jump => uses_patchJump jump.1 target

/-- The jump of a break or a continue is handed to the innermost loop. -/
theorem uses_changeContext {hole : Hole .jump} {f : LoopContext → LoopContext}
    (h : ∀ c, handlesOf (f c).jumps = hole.handle ::ₘ handlesOf c.jumps) :
    Uses {hole.handle} (changeContext f) fun _ => 0 := by
  intro s frame
  refine .single (.pass s _ _ _ ?_)
  rw [heldJumps_eq s.loops, heldJumps_cons, handlesOf_append, handlesOf_append, h, ← Multiset.singleton_add]
  ac_rfl

/-- Printing a text uses nothing. -/
theorem uses_printText (text : String) : Uses 0 (printText text) fun _ => 0 := by
  unfold printText
  refine (uses_reserve .jump).bind fun hole => (uses_embed _).bind_framed fun range => ?_
  rw [zero_add]
  refine (uses_patchJump hole _).bind fun _ => uses_get.bind fun s => ?_
  refine (uses_emit (properSequence_enterHost _ _)).bind fun _ => (uses_emitAddress _ _).bind fun _ => ?_
  refine (uses_emit (properSequence_singleton (by simp) rfl)).bind fun _ => ?_
  exact uses_emit (properSequence_leaveHost _)

/-- A call is noted beside the name of its procedure. -/
theorem uses_noteCall (hole : Hole .call) (name : String) :
    Uses {hole.handle} (modify fun s => { s with calls := s.calls ++ [(hole, name)] }) fun _ => 0 := by
  intro s frame
  show Account.Path ⟨s, {hole.handle} + frame⟩ ⟨_, 0 + frame⟩
  rw [Multiset.singleton_add, zero_add]
  exact .single (.note s frame hole name)

/-- An action uses nothing; what it leaves open the session holds. -/
theorem uses_action (position : Position) (a : Action) : Uses 0 (action position a) fun _ => 0 := by
  cases a with
  | assign dest source => exact uses_emit (properSequence_moveValue _ _)
  | update dest op source => exact uses_emit (properSequence_updateRegister _ _ _)
  | compute dest op lhs rhs => exact .throw
  | breakLoop =>
    refine (uses_reserve .jump).bind fun hole => uses_changeContext fun c => ?_
    simp only [LoopContext.jumps, handlesOf_append, handlesOf_cons, handlesOf_nil, ← Multiset.singleton_add, add_zero]
    ac_rfl
  | continueLoop =>
    refine (uses_reserve .jump).bind fun hole => uses_changeContext fun c => ?_
    simp only [LoopContext.jumps, handlesOf_append, handlesOf_cons, handlesOf_nil, ← Multiset.singleton_add, add_zero]
    ac_rfl
  | returnCall => exact uses_emit (properSequence_singleton (by simp) rfl)
  | call name => exact (uses_reserve .call).bind fun hole => uses_noteCall hole name
  | print source => exact uses_get.bind fun s => uses_emit (properSequence_printValue _ _)
  | printText text => exact uses_printText text
  | push r => exact uses_emit (properSequence_singleton (by simp) rfl)
  | pop r => exact uses_emit (properSequence_singleton (by simp) rfl)

/-- What a guard protects uses nothing if its body does not. -/
theorem uses_guarded {step : Compile Unit} (guard : Option Condition) (h : Uses 0 step fun _ => 0) :
    Uses 0 (guarded guard step) fun _ => 0 := by
  cases guard with
  | none => exact h
  | some c =>
    refine (uses_skipUnless c).bind fun skip => h.bind_framed fun _ => ?_
    rw [zero_add]
    refine uses_offset.bind_framed fun stop => ?_
    rw [zero_add]
    exact uses_landSkip skip stop

mutual

/-- A statement takes no handles and gives none. -/
theorem uses_statement (st : Statement) : Uses 0 (statement st) fun _ => 0 := by
  unfold statement
  cases st with
  | action a guard position => exact uses_guarded guard (uses_action position a)
  | loop condition statements guard position =>
    refine uses_guarded guard (uses_offset.bind fun start => (uses_mapM_skipUnless condition).bind fun exit => ?_)
    refine (uses_body statements).inContext.bind_framed fun context => (uses_jumpBack start).bind_framed fun _ => ?_
    rw [zero_add]
    refine uses_offset.bind_framed fun stop => ?_
    rw [zero_add, LoopContext.jumps, handlesOf_append, add_assoc]
    refine ((uses_forM_patchJump context.breaks stop).frame _).bind fun _ => ?_
    rw [zero_add]
    refine ((uses_forM_patchJump context.continues start).frame _).bind fun _ => ?_
    rw [zero_add]
    exact uses_forM_landSkip exit stop
  | branch condition thenBody elseBody guard position =>
    refine uses_guarded guard ((uses_skipUnless condition).bind fun skip => (uses_body thenBody).bind_framed fun _ => ?_)
    rw [zero_add]
    split
    · refine uses_offset.bind_framed fun stop => ?_
      rw [zero_add]
      exact uses_landSkip skip stop
    · refine (uses_reserve .jump).bind_framed fun overElse => uses_offset.bind_framed fun elseStart => ?_
      rw [zero_add]
      refine (uses_body elseBody).bind_framed fun _ => ?_
      rw [zero_add]
      refine uses_offset.bind_framed fun stop => ?_
      rw [zero_add, add_comm]
      refine ((uses_landSkip skip elseStart).frame _).bind fun _ => ?_
      rw [zero_add]
      exact uses_patchJump overElse stop

/-- A body uses nothing. -/
theorem uses_body (statements : List Statement) : Uses 0 (body statements) fun _ => 0 := by
  cases statements with
  | nil => exact .pure
  | cons st rest => exact ((uses_statement st).placedAt st.position).bind fun _ => uses_body rest

end

/-! ## Procedures, the code that a host enters, and the targets of the calls -/

/-- What is left of a procedure once its name is recorded. -/
def procedureBody (p : Procedure) (start : Nat) : Compile Nat := do
  let context ← inContext (body p.body)
  match context.firstStray? with
  | some position => throw ⟨.strayLoopControl, position⟩
  | none =>
    emit [.ret]
    return start

/-- A procedure is recorded, and then its body is written. -/
theorem run_procedure (p : Procedure) (s : Session) :
    (procedure p).run s = (procedureBody p s.offset).run { s with procedures := s.procedures ++ [(p.name, s.offset)] } := rfl

/-- A context without a stray jump holds no jump. -/
theorem jumps_eq_nil_iff (c : LoopContext) : c.firstStray? = none ↔ c.jumps = [] := by
  unfold LoopContext.firstStray? LoopContext.jumps
  rw [← List.map_eq_nil_iff (f := Prod.snd)]
  split <;> simp_all

/-- The body of a procedure uses nothing. -/
theorem uses_procedureBody (p : Procedure) (start : Nat) : Uses 0 (procedureBody p start) fun _ => 0 := by
  refine (uses_body p.body).inContext.bind fun context => ?_
  split
  · exact .throw
  · rename_i hnone
    rw [(jumps_eq_nil_iff context).1 hnone]
    exact (uses_emit (properSequence_singleton (by simp) rfl)).bind fun _ => .pure

/-- The entry uses nothing. -/
theorem uses_trampoline : Uses 0 trampoline fun _ => 0 := by
  refine uses_offset.bind fun entry => (uses_emit properSequence_pushAll).bind fun _ => ?_
  refine (uses_reserve .call).bind fun hole => (uses_noteCall hole mainName).bind fun _ => ?_
  refine (uses_emit ?_).bind fun _ => .pure
  exact properSequence_append properSequence_popAll (properSequence_singleton (by simp) rfl)

/-- A call is filled with the offset of its procedure, or refused if there is none. -/
theorem run_resolveCall (call : Hole .call × String) (s : Session) :
    (resolveCall call).run s = match s.procedureOffset? call.2 with
      | none => (.error ⟨.undefinedProcedure call.2, Position.unknown⟩, s)
      | some target => (patch fun a => a.patchCall call.1 target).run s := by
  unfold resolveCall Session.procedureOffset?
  rw [run_bind, run_get]
  simp only
  cases s.procedures.find? fun p => p.1 == call.2 <;> rfl

/-- Leading a call to its procedure takes its handle. -/
theorem uses_resolveCall (call : Hole .call × String) : Uses {call.1.handle} (resolveCall call) fun _ => 0 := by
  intro s frame
  rw [run_resolveCall]
  cases htarget : s.procedureOffset? call.2 with
  | none => exact ⟨_, .refl⟩
  | some target =>
    simp only
    rw [run_patch]
    rcases ha : s.assembler.patchCall call.1 target with e | a
    · exact ⟨_, .refl⟩
    · simp only
      rw [Multiset.singleton_add, zero_add]
      exact .single (.fill s frame call.1 target .call a ha fun _ => ⟨call.2, htarget⟩)

end Compile

end RegisterCompiler
