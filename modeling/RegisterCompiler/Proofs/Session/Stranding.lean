import RegisterCompiler.Proofs.Session.Holding
import RegisterCompiler.Proofs.Session.Program

/-!
# Failures that strand a hole

A step that fails drops the handles it has, and a hole whose handle is dropped stays open for good. `Strands` is the contract of a step
that drops a handle whenever it fails; a statement keeps it behind a test that can be compared (`strands_statement`). Where the
source is to blame for the failure, what is dropped can be read off the source (`Statement.faultsOpen`, `bodyFaultsOpen`): a handle is
dropped exactly if a hole is open where the first fault is (`fault_statement`, `fault_procedure`).
-/

namespace RegisterCompiler

open X64 (Assembler AssemblyError Handle Hole HoleKind)

/-! ## Holes that are open where the first fault is -/

namespace Statement

/-- The first test that a statement writes: that of its guard, or else its own. -/
def test? : Statement → Option Condition
  | action _ guard _ => guard
  | loop condition _ guard _ => guard.or condition
  | branch condition _ _ guard _ => guard.or (some condition)

/-- The faults of a statement, that of its guard first. -/
def faults (st : Statement) : List CompileError := conditionFaults st.guard ++ st.coreFaults

/-- The jumps out of a statement that belong to a loop around it, the breaks before the continues. -/
def jumpsOut (st : Statement) : List Position := st.outsideLoops .breakLoop ++ st.outsideLoops .continueLoop

end Statement

mutual

/-- Whether a statement has a hole open where its first fault is: behind its first test the branch of the test, and in a loop without
tests what the statements in it have open. -/
def Statement.faultsOpen : Statement → Bool
  | .action _ guard _ => guard.any fun c => !c.bothImmediate
  | .loop condition statements guard _ =>
    match guard.or condition with
    | some c => !c.bothImmediate
    | none => bodyFaultsOpen statements
  | .branch condition _ _ guard _ => !(guard.getD condition).bothImmediate

/-- Whether statements in a context of their own have a hole open where their first fault is, or else where they end: a jump out of a
statement without faults, or a hole of the statement with the fault. -/
def bodyFaultsOpen : List Statement → Bool
  | [] => false
  | st :: rest => if st.faults.isEmpty then !st.jumpsOut.isEmpty || bodyFaultsOpen rest else st.faultsOpen

end

/-- A statement with a test has the branch of the test open, unless the test itself is what fails. -/
theorem Statement.faultsOpen_of_test {st : Statement} {c : Condition} (h : st.test? = some c) :
    st.faultsOpen = !c.bothImmediate := by
  cases st with
  | action a guard position =>
    obtain rfl : guard = some c := h
    rfl
  | loop condition statements guard position =>
    have hor : guard.or condition = some c := h
    simp only [faultsOpen, hor]
  | branch condition thenBody elseBody guard position =>
    have hor : guard.or (some condition) = some c := h
    cases guard <;> simp_all [faultsOpen]

/-- With its first statement faulty, a body has open what that has. -/
theorem bodyFaultsOpen_of_fault {st : Statement} (h : st.faults ≠ []) (rest : List Statement) :
    bodyFaultsOpen (st :: rest) = st.faultsOpen := by
  rw [bodyFaultsOpen, if_neg (by simpa using h)]

/-- With a jump out of its first statement, a body has that jump open. -/
theorem bodyFaultsOpen_of_jump {st : Statement} (h : st.faults = []) (hjumps : st.jumpsOut ≠ []) (rest : List Statement) :
    bodyFaultsOpen (st :: rest) = true := by
  simp [bodyFaultsOpen, h, hjumps]

/-- A first statement without faults and jumps leaves nothing open. -/
theorem bodyFaultsOpen_of_sound {st : Statement} (h : st.faults = []) (hjumps : st.jumpsOut = []) (rest : List Statement) :
    bodyFaultsOpen (st :: rest) = bodyFaultsOpen rest := by
  simp [bodyFaultsOpen, h, hjumps]

/-- Statements without faults have a hole open where they end if a jump out of them belongs to no loop in them. -/
theorem bodyFaultsOpen_of_jumps {statements : List Statement} (hfaults : bodyFaults statements = [])
    (hjumps : outsideLoops .breakLoop statements ++ outsideLoops .continueLoop statements ≠ []) : bodyFaultsOpen statements = true := by
  induction statements with
  | nil => exact absurd rfl hjumps
  | cons st rest ih =>
    obtain ⟨hst, hrest⟩ := List.append_eq_nil_iff.1 (show st.faults ++ bodyFaults rest = [] from hfaults)
    by_cases hout : st.jumpsOut = []
    · obtain ⟨hbreaks, hcontinues⟩ := List.append_eq_nil_iff.1 hout
      rw [bodyFaultsOpen_of_sound hst hout]
      refine ih hrest ?_
      rwa [outsideLoops, outsideLoops, hbreaks, hcontinues] at hjumps
    · exact bodyFaultsOpen_of_jump hst hout rest

/-- A jump that belongs to no loop is no fault of a statement. -/
theorem fault_ne_strayLoopControl {statements : List Statement} {e : CompileError} (h : e ∈ bodyFaults statements) :
    e.fault ≠ .strayLoopControl := by
  rw [bodyFaults_eq_flatMap] at h
  obtain ⟨st, -, hst⟩ := List.mem_flatMap.1 h
  rcases List.mem_append.1 hst with hcondition | hlonghand
  · obtain ⟨c, -, hc⟩ := List.mem_flatMap.1 hcondition
    unfold Condition.faults at hc
    split at hc <;> simp_all
  · split at hlonghand <;> simp_all

/-- A procedure that reports a jump that belongs to no loop has this jump open. -/
theorem Procedure.faultsOpen_of_stray {p : Procedure} {position : Position}
    (h : p.faults.head? = some ⟨.strayLoopControl, position⟩) : bodyFaultsOpen p.body = true := by
  rw [Procedure.faults, List.head?_append] at h
  cases hbody : bodyFaults p.body with
  | cons e rest =>
    rw [hbody, List.head?_cons, Option.some_or] at h
    have hne := fault_ne_strayLoopControl (hbody ▸ List.mem_cons_self : e ∈ bodyFaults p.body)
    rw [Option.some.inj h] at hne
    exact absurd rfl hne
  | nil =>
    refine bodyFaultsOpen_of_jumps hbody fun hnone => ?_
    rw [hbody, show p.strays = [] from hnone] at h
    cases h

/-- A context without jumps is empty. -/
theorem LoopContext.eq_empty_of_jumps {c : LoopContext} (h : c.jumps = []) : c = {} := by
  obtain ⟨hbreaks, hcontinues⟩ := List.append_eq_nil_iff.1 h
  cases c
  cases hbreaks
  cases hcontinues
  rfl

/-- Without handles there are no holes. -/
theorem eq_nil_of_handlesOf {kind : HoleKind} {β : Type} {holes : List (Hole kind × β)} (h : handlesOf holes = 0) : holes = [] := by
  simpa [handlesOf] using h

namespace Compile

variable {α β : Type} {takes : Multiset Handle} {step : Compile α} {gives : α → Multiset Handle}

/-! ## Steps that drop a handle whenever they fail -/

/-- A step that drops a handle whenever it fails. -/
def Strands (takes : Multiset Handle) (step : Compile α) : Prop :=
  ∀ s frame e after, step.run s = (.error e, after) →
    ∃ dropped, dropped ≠ 0 ∧ Account.Path ⟨s, takes + frame⟩ ⟨after, dropped + frame⟩

/-- A step that leaves the session as it is when it fails drops what it was given. -/
theorem Strands.of_unchanged (htakes : takes ≠ 0) (h : ∀ s e after, step.run s = (.error e, after) → after = s) :
    Strands takes step := by
  intro s frame e after hrun
  obtain rfl := h s e after hrun
  exact ⟨takes, htakes, .refl⟩

/-- A step that never fails. -/
theorem Strands.of_ok (h : ∀ s, ∃ a after, step.run s = (.ok a, after)) : Strands takes step := by
  intro s frame e after hrun
  obtain ⟨a, after', ha⟩ := h s
  rw [ha] at hrun
  cases hrun

/-- While a handle is left alone, any step may fail: that handle is dropped. -/
theorem Strands.of_uses {more : Multiset Handle} (h : Uses takes step gives) (hmore : more ≠ 0) : Strands (takes + more) step := by
  intro s frame e after hrun
  have hs := h s (more + frame)
  rw [hrun] at hs
  obtain ⟨dropped, hpath⟩ := hs
  exact ⟨dropped + more, by simp [hmore], by rwa [add_assoc, add_assoc]⟩

/-- A step that drops a handle does so among more handles. -/
theorem Strands.frame (h : Strands takes step) (more : Multiset Handle) : Strands (takes + more) step := by
  intro s frame e after hrun
  obtain ⟨dropped, hdropped, hpath⟩ := h s (more + frame) e after hrun
  exact ⟨dropped + more, by simp [hdropped], by rwa [add_assoc, add_assoc]⟩

/-- A step and one behind it drop a handle if both do whenever they fail. -/
theorem Strands.bind {f : α → Compile β} (h : Uses takes step gives) (hs : Strands takes step)
    (hf : ∀ a, Strands (gives a) (f a)) : Strands takes (step >>= f) := by
  intro s frame e after hrun
  have hpath := h s frame
  rw [run_bind] at hrun
  rcases hr : step.run s with ⟨e' | a, middle⟩
  · rw [hr] at hrun
    obtain ⟨-, rfl⟩ := Prod.mk.inj hrun
    exact hs s frame e' middle hr
  · rw [hr] at hrun hpath
    obtain ⟨dropped, hdropped, hpath'⟩ := hf a middle frame e after hrun
    exact ⟨dropped, hdropped, hpath.trans hpath'⟩

/-- A step that takes no handles goes first, beside handles that are left alone. -/
theorem Strands.bind_framed {f : α → Compile β} (h : Uses 0 step gives) (htakes : takes ≠ 0)
    (hf : ∀ a, Strands (gives a + takes) (f a)) : Strands takes (step >>= f) := by
  have := Strands.bind (h.frame takes) (.of_uses h htakes) hf
  rwa [zero_add] at this

/-- A hole that cannot be filled is dropped. -/
theorem strands_patch (change : Assembler → Except AssemblyError Assembler) (htakes : takes ≠ 0) : Strands takes (patch change) := by
  refine .of_unchanged htakes fun s e after hrun => ?_
  rw [run_patch] at hrun
  split at hrun
  · cases hrun
  · exact (Prod.mk.inj hrun).2.symm

/-- A skip that cannot be landed is dropped. -/
theorem strands_landSkip (skip : Hole .branch × Comparison) (target : Nat) : Strands {skip.1.handle} (landSkip skip target) :=
  strands_patch _ (Multiset.singleton_ne_zero _)

/-- A call that cannot be led to its procedure is dropped. -/
theorem strands_resolveCall (call : Hole .call × String) : Strands {call.1.handle} (resolveCall call) := by
  refine .of_unchanged (Multiset.singleton_ne_zero _) fun s e after hrun => ?_
  rw [run_resolveCall] at hrun
  split at hrun
  · exact (Prod.mk.inj hrun).2.symm
  · rw [run_patch] at hrun
    split at hrun
    · cases hrun
    · exact (Prod.mk.inj hrun).2.symm

/-- A call that cannot be resolved is dropped, and those behind it are too. -/
theorem strands_forM_resolveCall (calls : List (Hole .call × String)) : Strands (handlesOf calls) (calls.forM resolveCall) := by
  induction calls with
  | nil => exact fun s frame e after hrun => by cases hrun
  | cons call rest ih =>
    rw [handlesOf_cons, ← Multiset.singleton_add]
    refine .bind ((uses_resolveCall call).frame _) ((strands_resolveCall call).frame _) fun _ => ?_
    rw [zero_add]
    exact ih

/-- Behind a test that can be compared, its branch is open. -/
theorem strands_skipUnless {c : Condition} (hc : c.bothImmediate = false) {f : Hole .branch × Comparison → Compile α}
    (hf : ∀ skip, Strands {skip.1.handle} (f skip)) : Strands 0 (skipUnless c >>= f) := by
  refine .bind (uses_skipUnless c) (fun s frame e after hrun => ?_) hf
  unfold skipUnless at hrun
  rcases c.compare_cases with ⟨hb, -⟩ | ⟨-, hcompare⟩
  · rw [hc] at hb
    cases hb
  · rw [hcompare] at hrun
    cases hrun

/-- A test that is there is written. -/
theorem mapM_skipUnless (c : Condition) : (some c).mapM skipUnless = skipUnless c >>= fun skip => Pure.pure (some skip) := by
  simp [Option.mapM]

/-- The branch of a loop's test is filled last, and so dropped whenever the loop fails. -/
theorem strands_loop {c : Condition} (hc : c.bothImmediate = false) (statements : List Statement) (position : Position) :
    Strands 0 (statement (.loop (some c) statements none position)) := by
  unfold statement guarded
  refine .bind uses_offset (.of_ok fun s => ⟨_, _, rfl⟩) fun start => ?_
  rw [mapM_skipUnless, bind_assoc]
  refine strands_skipUnless hc fun skip => ?_
  rw [pure_bind]
  refine .bind_framed (uses_body statements).inContext (Multiset.singleton_ne_zero _) fun context => ?_
  refine .bind_framed (uses_jumpBack start) (by simp) fun _ => .bind_framed uses_offset (by simp) fun stop => ?_
  rw [zero_add, zero_add, LoopContext.jumps, handlesOf_append, add_assoc]
  refine .bind ((uses_forM_patchJump context.breaks stop).frame _) (.of_uses (uses_forM_patchJump context.breaks stop) (by simp))
    fun _ => ?_
  rw [zero_add]
  refine .bind ((uses_forM_patchJump context.continues start).frame _)
    (.of_uses (uses_forM_patchJump context.continues start) (by simp)) fun _ => ?_
  rw [zero_add]
  exact strands_landSkip skip stop

/-- A branch whose condition is written drops a handle whenever it fails. -/
theorem strands_branch {c : Condition} (hc : c.bothImmediate = false) (thenBody elseBody : List Statement) (position : Position) :
    Strands 0 (statement (.branch c thenBody elseBody none position)) := by
  unfold statement guarded
  refine strands_skipUnless hc fun skip => .bind_framed (uses_body thenBody) (Multiset.singleton_ne_zero _) fun _ => ?_
  rw [zero_add]
  split
  · refine .bind_framed uses_offset (Multiset.singleton_ne_zero _) fun stop => ?_
    rw [zero_add]
    exact strands_landSkip skip stop
  · refine .bind_framed (uses_reserve .jump) (Multiset.singleton_ne_zero _) fun overElse => ?_
    refine .bind_framed uses_offset (by simp) fun elseStart => ?_
    refine .bind_framed (uses_body elseBody) (by simp) fun _ => ?_
    refine .bind_framed uses_offset (by simp) fun stop => ?_
    rw [zero_add, zero_add, zero_add, add_comm]
    refine .bind ((uses_landSkip skip elseStart).frame _) (.of_uses (uses_landSkip skip elseStart) (by simp)) fun _ => ?_
    rw [zero_add]
    exact strands_patch _ (Multiset.singleton_ne_zero _)

/-- What a written guard protects drops a handle whenever it fails. -/
theorem strands_guarded {c : Condition} (hc : c.bothImmediate = false) {step : Compile Unit} (h : Uses 0 step fun _ => 0) :
    Strands 0 (guarded (some c) step) := by
  refine strands_skipUnless hc fun skip => .bind_framed h (Multiset.singleton_ne_zero _) fun _ => ?_
  rw [zero_add]
  refine .bind_framed uses_offset (Multiset.singleton_ne_zero _) fun stop => ?_
  rw [zero_add]
  exact strands_landSkip skip stop

/-- A statement whose first test can be compared drops a handle whenever it fails. -/
theorem strands_statement {st : Statement} {c : Condition} (htest : st.test? = some c) (hc : c.bothImmediate = false) :
    Strands 0 (statement st) := by
  cases st with
  | action a guard position =>
    obtain rfl : guard = some c := htest
    exact strands_guarded hc (uses_action position a)
  | loop condition statements guard position =>
    cases guard with
    | none =>
      obtain rfl : condition = some c := htest
      exact strands_loop hc statements position
    | some g =>
      obtain rfl : g = c := Option.some.inj htest
      have hcore := uses_statement (.loop condition statements none position)
      unfold statement guarded at hcore
      exact strands_guarded hc hcore
  | branch condition thenBody elseBody guard position =>
    cases guard with
    | none =>
      obtain rfl : condition = c := Option.some.inj htest
      exact strands_branch hc thenBody elseBody position
    | some g =>
      obtain rfl : g = c := Option.some.inj htest
      have hcore := uses_statement (.branch condition thenBody elseBody none position)
      unfold statement guarded at hcore
      exact strands_guarded hc hcore

/-! ## The contexts of a step that may fail -/

/-- A step that changes no context but the innermost one, to which it may add jumps. -/
def Keeps (step : Compile α) : Prop :=
  ∀ s c outer, s.loops = c :: outer → ∃ c', (step.run s).2.loops = c' :: outer ∧ c.jumps ⊆ c'.jumps

/-- A step that leaves all contexts as they are. -/
theorem Keeps.of_loops (h : ∀ s, (step.run s).2.loops = s.loops) : Keeps step :=
  fun s c _ hs => ⟨c, (h s).trans hs, List.Subset.refl _⟩

/-- One step after another. -/
theorem Keeps.bind {f : α → Compile β} (h : Keeps step) (hf : ∀ a, Keeps (f a)) : Keeps (step >>= f) := by
  intro s c outer hs
  obtain ⟨c', hc', hsub⟩ := h s c outer hs
  rw [run_bind]
  rcases hr : step.run s with ⟨e | a, after⟩
  · rw [hr] at hc'
    exact ⟨c', hc', hsub⟩
  · rw [hr] at hc'
    obtain ⟨c'', hc'', hsub'⟩ := hf a after c' outer hc'
    exact ⟨c'', hc'', List.Subset.trans hsub hsub'⟩

/-- A step with its errors placed. -/
theorem Keeps.placedAt (position : Position) (h : Keeps step) : Keeps (placedAt position step) := by
  intro s c outer hs
  rw [run_placedAt]
  exact h s c outer hs

/-- A step for each element of a list. -/
theorem Keeps.forM {γ : Type} {f : γ → Compile Unit} (h : ∀ x, Keeps (f x)) (xs : List γ) : Keeps (xs.forM f) := by
  induction xs with
  | nil => exact .of_loops fun _ => rfl
  | cons x rest ih => exact (h x).bind fun _ => ih

/-- A step in a context of its own leaves those around it as they are. -/
theorem Keeps.loops_inContext {step : Compile Unit} (h : Keeps step) (s : Session) : ((inContext step).run s).2.loops = s.loops := by
  obtain ⟨c, hc, -⟩ := h { s with loops := {} :: s.loops } {} s.loops rfl
  rw [run_inContext]
  exact congrArg List.tail hc

theorem keeps_offset : Keeps offset := .of_loops fun _ => rfl

theorem keeps_get : Keeps get := .of_loops fun _ => rfl

theorem keeps_emit (sequence : X64.Sequence) : Keeps (emit sequence) := .of_loops fun _ => rfl

theorem keeps_embed (bytes : List UInt8) : Keeps (embed bytes) := .of_loops fun _ => rfl

theorem keeps_reserve (kind : HoleKind) : Keeps (reserve kind) := .of_loops fun _ => rfl

theorem keeps_patch (change : Assembler → Except AssemblyError Assembler) : Keeps (patch change) := by
  refine .of_loops fun s => ?_
  rw [run_patch]
  split <;> rfl

theorem keeps_skipUnless (c : Condition) : Keeps (skipUnless c) := by
  unfold skipUnless
  split
  · exact .of_loops fun _ => rfl
  · exact .of_loops fun _ => rfl

theorem keeps_jumpBack (target : Nat) : Keeps (jumpBack target) := (keeps_reserve .jump).bind fun _ => keeps_patch _

/-- Adding jumps to the innermost context keeps those that it has. -/
theorem keeps_changeContext {f : LoopContext → LoopContext} (h : ∀ c, c.jumps ⊆ (f c).jumps) : Keeps (changeContext f) := by
  intro s c outer hs
  refine ⟨f c, ?_, h c⟩
  show f (s.loops.headD {}) :: s.loops.tail = _
  rw [hs]
  rfl

theorem keeps_printText (text : String) : Keeps (printText text) := by
  unfold printText
  refine (keeps_reserve .jump).bind fun hole => (keeps_embed _).bind fun range => (keeps_patch _).bind fun _ => ?_
  refine keeps_get.bind fun s => (keeps_emit _).bind fun _ => (keeps_patch _).bind fun _ => ?_
  exact (keeps_emit _).bind fun _ => keeps_emit _

/-- An action adds its jump to the innermost context at most. -/
theorem keeps_action (position : Position) (a : Action) : Keeps (action position a) := by
  cases a with
  | breakLoop =>
    refine (keeps_reserve .jump).bind fun hole => keeps_changeContext fun c => ?_
    simp [LoopContext.jumps]
  | continueLoop =>
    refine (keeps_reserve .jump).bind fun hole => keeps_changeContext fun c => ?_
    simp [LoopContext.jumps]
  | assign dest source => exact keeps_emit _
  | update dest op source => exact keeps_emit _
  | compute dest op lhs rhs => exact .of_loops fun _ => rfl
  | returnCall => exact keeps_emit _
  | call name => exact (keeps_reserve .call).bind fun hole => .of_loops fun _ => rfl
  | print source => exact keeps_get.bind fun s => keeps_emit _
  | printText text => exact keeps_printText text
  | push r => exact keeps_emit _
  | pop r => exact keeps_emit _

/-- What a guard protects adds jumps to the innermost context at most if its body does. -/
theorem keeps_guarded (guard : Option Condition) {step : Compile Unit} (h : Keeps step) : Keeps (guarded guard step) := by
  cases guard with
  | none => exact h
  | some c => exact (keeps_skipUnless c).bind fun _ => h.bind fun _ => keeps_offset.bind fun _ => keeps_patch _

mutual

/-- A statement adds its jumps to the innermost context at most. -/
theorem keeps_statement (st : Statement) : Keeps (statement st) := by
  unfold statement
  cases st with
  | action a guard position => exact keeps_guarded guard (keeps_action position a)
  | loop condition statements guard position =>
    have htest : Keeps (condition.mapM skipUnless) := by
      cases condition with
      | none => exact .of_loops fun _ => rfl
      | some c => exact (keeps_skipUnless c).bind fun _ => .of_loops fun _ => rfl
    refine keeps_guarded guard (keeps_offset.bind fun start => htest.bind fun exit => ?_)
    refine (Keeps.of_loops (keeps_body statements).loops_inContext).bind fun context => (keeps_jumpBack start).bind fun _ => ?_
    refine keeps_offset.bind fun stop => (Keeps.forM (fun _ => keeps_patch _) _).bind fun _ => ?_
    refine (Keeps.forM (fun _ => keeps_patch _) _).bind fun _ => ?_
    cases exit with
    | none => exact .of_loops fun _ => rfl
    | some skip => exact keeps_patch fun a => a.patchBranch skip.1 stop skip.2 true
  | branch condition thenBody elseBody guard position =>
    refine keeps_guarded guard ((keeps_skipUnless condition).bind fun skip => (keeps_body thenBody).bind fun _ => ?_)
    split
    · exact keeps_offset.bind fun _ => keeps_patch _
    · refine (keeps_reserve .jump).bind fun overElse => keeps_offset.bind fun elseStart => ?_
      exact (keeps_body elseBody).bind fun _ => keeps_offset.bind fun stop => (keeps_patch _).bind fun _ => keeps_patch _

/-- Statements add jumps to the innermost context, also if they fail. -/
theorem keeps_body (statements : List Statement) : Keeps (body statements) := by
  unfold body
  cases statements with
  | nil => exact .of_loops fun _ => rfl
  | cons st rest => exact ((keeps_statement st).placedAt st.position).bind fun _ => keeps_body rest

end

/-! ## What a fault of the source drops -/

/-- A statement that fails for the source has a fault. -/
theorem faults_of_error {st : Statement} {s after : Session} {e : CompileError} (h : (statement st).run s = (.error e, after))
    (he : e.OfSource) : st.faults ≠ [] := by
  intro hnone
  have hhead := (yields_statement st s (Nat.le_refl _)).of_error h he
  rw [show conditionFaults st.guard ++ st.coreFaults = [] from hnone] at hhead
  cases hhead

/-- A statement that succeeds has no fault, and has written its pieces. -/
theorem faults_of_ok {st : Statement} {s after : Session} (h : (statement st).run s = (.ok (), after)) :
    st.faults = [] ∧ s.Grew after (st.pieces s.intrinsics .unknown s.offset) :=
  (yields_statement st s (Nat.le_refl _)).of_ok h

theorem run_offset (s : Session) : offset.run s = (.ok s.offset, s) := rfl

/-- Statements that come to their end have no faults. -/
theorem faults_of_inContext {statements : List Statement} {s after : Session} {context : LoopContext}
    (h : (inContext (body statements)).run s = (.ok context, after)) : bodyFaults statements = [] := by
  rw [run_inContext] at h
  rcases hr : (body statements).run { s with loops := {} :: s.loops } with ⟨e | _, inner⟩
  · rw [hr] at h
    cases (Prod.mk.inj h).1
  · exact ((writes_body statements s.intrinsics { s with loops := {} :: s.loops } rfl (Nat.le_refl _)).of_ok hr).1

/-- A condition on two immediates is refused before anything is written. -/
theorem run_statement_of_bothImmediate {st : Statement} {c : Condition} (htest : st.test? = some c) (hc : c.bothImmediate = true)
    (s : Session) : ∃ e, (statement st).run s = (.error e, s) := by
  have hskip : (skipUnless c).run s = (.error ⟨.unsupportedComparison, c.position⟩, s) := by
    unfold skipUnless
    rcases c.compare_cases with ⟨-, hcompare⟩ | ⟨hb, -⟩
    · rw [hcompare]
      rfl
    · rw [hc] at hb
      cases hb
  have hguarded : ∀ step : Compile Unit, (guarded (some c) step).run s = (.error ⟨.unsupportedComparison, c.position⟩, s) := by
    intro step
    unfold guarded
    simp only [run_bind, hskip]
  refine ⟨⟨.unsupportedComparison, c.position⟩, ?_⟩
  unfold statement
  cases st with
  | action a guard position =>
    obtain rfl : guard = some c := htest
    exact hguarded _
  | loop condition statements guard position =>
    cases guard with
    | some g =>
      obtain rfl : g = c := Option.some.inj htest
      exact hguarded _
    | none =>
      obtain rfl : condition = some c := htest
      unfold guarded
      simp only [run_bind, run_offset, mapM_skipUnless, hskip]
  | branch condition thenBody elseBody guard position =>
    cases guard with
    | some g =>
      obtain rfl : g = c := Option.some.inj htest
      exact hguarded _
    | none =>
      obtain rfl : condition = c := Option.some.inj htest
      unfold guarded
      simp only [run_bind, hskip]

/-- The jumps that a statement adds to a new context are those out of it. -/
theorem map_snd_jumps_statement (st : Statement) (s : Session) :
    (({} : LoopContext).add s.count s.offset (st.pieces s.intrinsics .unknown s.offset)).jumps.map Prod.snd = st.jumpsOut := by
  have h := map_snd_jumps_add s.intrinsics s.count s.offset s.offset [st]
  rw [bodyPieces_cons, bodyPieces, List.append_nil] at h
  simp only [outsideLoops, List.append_nil] at h
  exact h

/-- What statements in a context of their own leave behind when they fail by a fault of the source: a handle is dropped, or is in the
context, exactly if a hole is open where the fault is. -/
def Strand (statements : List Statement) : Prop :=
  ∀ s outer e after, s.loops = {} :: outer → (body statements).run s = (.error e, after) → e.OfSource → ∀ frame,
    ∃ dropped c, Account.Path ⟨s, frame⟩ ⟨after, dropped + frame⟩ ∧ after.loops = c :: outer ∧
      (handlesOf c.jumps + dropped ≠ 0 ↔ bodyFaultsOpen statements = true)

/-- The jumps of the context are dropped with it. -/
theorem fault_inContext {statements : List Statement} (h : Strand statements) {s after : Session} {e : CompileError}
    (hrun : (inContext (body statements)).run s = (.error e, after)) (he : e.OfSource) (frame : Multiset Handle) :
    ∃ dropped, Account.Path ⟨s, frame⟩ ⟨after, dropped + frame⟩ ∧ (dropped ≠ 0 ↔ bodyFaultsOpen statements = true) := by
  rw [run_inContext] at hrun
  rcases hr : (body statements).run { s with loops := {} :: s.loops } with ⟨e' | _, inner⟩
  · rw [hr] at hrun
    obtain ⟨he', rfl⟩ := Prod.mk.inj hrun
    obtain rfl : e' = e := Except.error.inj he'
    obtain ⟨dropped, c, hpath, hloops, hiff⟩ := h _ s.loops e' inner rfl hr he frame
    refine ⟨handlesOf c.jumps + dropped, ?_, hiff⟩
    have hclose := path_closeContext inner (dropped + frame)
    rw [hloops, ← add_assoc] at hclose
    rw [hloops]
    exact ((path_openContext s frame).trans hpath).trans hclose
  · rw [hr] at hrun
    cases (Prod.mk.inj hrun).1

mutual

/-- A statement that fails by a fault of the source drops a handle exactly if a hole is open where the fault is, and otherwise it leaves
the contexts as they were. -/
theorem fault_statement (st : Statement) {s after : Session} {e : CompileError} (hrun : (statement st).run s = (.error e, after))
    (he : e.OfSource) (frame : Multiset Handle) :
    ∃ dropped, Account.Path ⟨s, frame⟩ ⟨after, dropped + frame⟩ ∧ (dropped ≠ 0 ↔ st.faultsOpen = true) ∧
      (st.faultsOpen = false → after.loops = s.loops) := by
  rcases htest : st.test? with _ | c
  · -- Without a test only a longhand and a loop may fail.
    cases st with
    | action a guard position =>
      obtain rfl : guard = none := htest
      have hfaults := faults_of_error hrun he
      cases a with
      | compute dest op lhs rhs =>
        obtain ⟨-, rfl⟩ := Prod.mk.inj hrun
        exact ⟨0, by rw [zero_add], by simp [Statement.faultsOpen], fun _ => rfl⟩
      | _ => exact absurd rfl hfaults
    | loop condition statements guard position =>
      obtain ⟨rfl, rfl⟩ : guard = none ∧ condition = none := Option.or_eq_none_iff.1 htest
      have hfaults := faults_of_error hrun he
      have hkept := (keeps_body statements).loops_inContext s
      unfold statement guarded at hrun
      rw [run_bind, run_offset] at hrun
      simp only [Option.mapM_none, pure_bind] at hrun
      rw [run_bind] at hrun
      rcases hin : (inContext (body statements)).run s with ⟨e' | context, t⟩
      · rw [hin] at hrun hkept
        obtain ⟨rfl, rfl⟩ : e' = e ∧ t = after := ⟨Except.error.inj (Prod.mk.inj hrun).1, (Prod.mk.inj hrun).2⟩
        obtain ⟨dropped, hpath, hiff⟩ := fault_inContext (fault_body statements) hin he frame
        exact ⟨dropped, hpath, hiff, fun _ => hkept⟩
      · exact absurd (faults_of_inContext hin) hfaults
    | branch condition thenBody elseBody guard position => simp [Statement.test?] at htest
  · have hopens := Statement.faultsOpen_of_test htest
    cases hc : c.bothImmediate with
    | true =>
      obtain ⟨e', he'⟩ := run_statement_of_bothImmediate htest hc s
      rw [he'] at hrun
      obtain ⟨-, rfl⟩ := Prod.mk.inj hrun
      exact ⟨0, by rw [zero_add], by simp [hopens, hc], fun _ => rfl⟩
    | false =>
      obtain ⟨dropped, hdropped, hpath⟩ := strands_statement htest hc s frame e after hrun
      rw [zero_add] at hpath
      exact ⟨dropped, hpath, by simp [hopens, hc, hdropped], by simp [hopens, hc]⟩

/-- A body that fails leaves a handle behind exactly if a hole is open where its fault is. -/
theorem fault_body (statements : List Statement) : Strand statements := by
  intro s outer e after hloops hrun he frame
  cases statements with
  | nil => cases hrun
  | cons st rest =>
    unfold body at hrun
    rw [run_bind, run_placedAt] at hrun
    rcases hst : (statement st).run s with ⟨e' | _, t⟩
    · rw [hst] at hrun
      obtain ⟨he', rfl⟩ := Prod.mk.inj hrun
      have hsource : e'.OfSource := by
        obtain rfl : e'.placedAt st.position = e := Except.error.inj he'
        exact fun a ha => he a ((e'.fault_placedAt st.position).trans ha)
      obtain ⟨dropped, hpath, hiff, hkept⟩ := fault_statement st hst hsource frame
      obtain ⟨c, hc, -⟩ := keeps_statement st s {} outer hloops
      rw [hst] at hc
      refine ⟨dropped, c, hpath, hc, ?_⟩
      rw [bodyFaultsOpen_of_fault (faults_of_error hst hsource)]
      -- nothing is in the context yet, so only what the statement drops counts
      cases hopen : st.faultsOpen with
      | true => simp [hiff.2 hopen]
      | false =>
        have hnone : dropped = 0 := by
          by_contra hdropped
          rw [hiff.1 hdropped] at hopen
          cases hopen
        have hempty : c = {} := by
          have hloops' := hkept hopen
          rw [hc, hloops] at hloops'
          exact (List.cons.inj hloops').1
        simp [hnone, hempty]
    · rw [hst] at hrun
      have hrun : (body rest).run t = (.error e, after) := hrun
      obtain ⟨hfaults, hgrew⟩ := faults_of_ok hst
      have hpath := uses_statement st s frame
      rw [hst] at hpath
      simp only [zero_add] at hpath
      have hcontext := hgrew.loops {} outer hloops
      have hjumps := map_snd_jumps_statement st s
      -- a jump out of the statement stays in the context, whatever fails behind it
      by_cases hout : st.jumpsOut = []
      · have hempty : ({} : LoopContext).add s.count s.offset (st.pieces s.intrinsics .unknown s.offset) = {} := by
          rw [hout, List.map_eq_nil_iff] at hjumps
          exact LoopContext.eq_empty_of_jumps hjumps
        rw [hempty] at hcontext
        obtain ⟨dropped, c, hpath', hrest⟩ := fault_body rest t outer e after hcontext hrun he frame
        rw [bodyFaultsOpen_of_sound hfaults hout]
        exact ⟨dropped, c, hpath.trans hpath', hrest⟩
      · have hpath' := uses_body rest t frame
        obtain ⟨c, hc, hsub⟩ := keeps_body rest t _ outer hcontext
        rw [hrun] at hpath' hc
        obtain ⟨dropped, hpath'⟩ := hpath'
        rw [zero_add] at hpath'
        refine ⟨dropped, c, hpath.trans hpath', hc, ?_⟩
        have hheld : handlesOf c.jumps ≠ 0 := by
          intro hnone
          rw [eq_nil_of_handlesOf hnone] at hsub
          rw [List.subset_nil.1 hsub] at hjumps
          exact hout hjumps.symm
        simp [bodyFaultsOpen_of_jump hfaults hout, hheld]

end

/-- A procedure that fails by a fault of the source drops a handle exactly if a hole is open where the fault is. -/
theorem fault_procedure {p : Procedure} {s after : Session} {e : CompileError} (hrun : (procedure p).run s = (.error e, after))
    (he : e.OfSource) (frame : Multiset Handle) :
    ∃ dropped, Account.Path ⟨{ s with procedures := s.procedures ++ [(p.name, s.offset)] }, frame⟩ ⟨after, dropped + frame⟩ ∧
      (dropped ≠ 0 ↔ bodyFaultsOpen p.body = true) := by
  have hhead := (yields_procedure p s (Nat.le_refl _)).of_error hrun he
  rw [run_procedure] at hrun
  unfold procedureBody at hrun
  rw [run_bind] at hrun
  have hpath := (uses_body p.body).inContext { s with procedures := s.procedures ++ [(p.name, s.offset)] } frame
  rcases hin : (inContext (body p.body)).run { s with procedures := s.procedures ++ [(p.name, s.offset)] } with ⟨e' | context, t⟩
  · rw [hin] at hrun
    obtain ⟨rfl, rfl⟩ : e' = e ∧ t = after := ⟨Except.error.inj (Prod.mk.inj hrun).1, (Prod.mk.inj hrun).2⟩
    exact fault_inContext (fault_body p.body) hin he frame
  · rw [hin] at hrun hpath
    simp only [zero_add] at hrun hpath
    split at hrun
    · rename_i position hstray
      obtain ⟨he', rfl⟩ := Prod.mk.inj hrun
      obtain rfl : _ = e := Except.error.inj he'
      have hjumps : handlesOf context.jumps ≠ 0 := by
        intro hnone
        rw [(jumps_eq_nil_iff context).2 (eq_nil_of_handlesOf hnone)] at hstray
        cases hstray
      exact ⟨handlesOf context.jumps, hpath, by simp [hjumps, Procedure.faultsOpen_of_stray hhead]⟩
    · cases hrun

end Compile

/-- A longhand fails with nothing open, and behind a break with the jump of the break open. -/
example :
    let longhand := Statement.action (.compute .rax .add ⟨.immediate 1, ⟨18, 1, 19⟩⟩ ⟨.immediate 2, ⟨22, 1, 23⟩⟩) none ⟨12, 1, 13⟩
    bodyFaultsOpen [longhand] = false ∧ bodyFaultsOpen [.action .breakLoop none ⟨5, 1, 6⟩, longhand] = true := by decide

end RegisterCompiler
