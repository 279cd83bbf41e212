import Mathlib
import RegisterCompiler.Proofs.Session.Accounting
import RegisterCompiler.Proofs.Session.Extended

/-!
# Procedures do not depend on what was compiled before them

`Compile.Carries base f x x' u` says that the step `x'`, begun behind `base`, does there what `x` does in `u` alone: it ends alike,
and what it leaves is what `x` leaves, put behind `base`. There is one rule for each way steps are composed and one lemma for each
part of the compiler. A statement is carried behind every session while a context is open (`carries_statement`), and a procedure,
which opens one, whatever is open (`carries_procedure`). A new session puts nothing behind another one, so a procedure is compiled in
any session as in a new one (`independent_procedure`).
-/

namespace RegisterCompiler

open X64 (Assembler AssemblyError ByteRange Hole)

/-- A session from which another one has come with as many contexts and no code less. -/
structure Session.LeadsTo (s after : Session) : Prop where
  loops : after.loops.length = s.loops.length
  offset : s.offset ≤ after.offset

namespace Session.LeadsTo

variable {s after later : Session}

theorem refl (s : Session) : s.LeadsTo s := ⟨rfl, Nat.le_refl _⟩

theorem trans (h : s.LeadsTo after) (h' : after.LeadsTo later) : s.LeadsTo later :=
  ⟨h'.loops.trans h.loops, h.offset.trans h'.offset⟩

/-- A context that is open stays open. -/
theorem loops_ne_nil (h : s.LeadsTo after) (hs : s.loops ≠ []) : after.loops ≠ [] := by
  rw [← List.length_pos_iff] at hs ⊢
  rwa [h.loops]

end Session.LeadsTo

namespace Compile

variable {α β γ δ : Type} {base u : Session}

/-- Begun behind `base`, the step `x'` does what `x` does in `u` alone: if there is room for it, it leaves what `x` leaves, behind
`base`, and it ends like `x`, with the same result or error but for the offsets in them. -/
structure Carries (base : Session) (f : α → β) (x : Compile α) (x' : Compile β) (u : Session) : Prop where
  leads : u.LeadsTo (x.run u).2
  moved : base.offset + (x.run u).2.offset ≤ X64.capacity →
    x'.run (base.extendedBy u) = (mapOutcome f (CompileError.shifted base.offset) (x.run u).1, base.extendedBy (x.run u).2)

/-- A step whose end is known is carried if the other one ends so too. -/
theorem Carries.of_run {f : α → β} {x : Compile α} {x' : Compile β} {result : Except CompileError α} {after : Session}
    (h : x.run u = (result, after)) (hleads : u.LeadsTo after)
    (hmoved : base.offset + after.offset ≤ X64.capacity →
      x'.run (base.extendedBy u) = (mapOutcome f (CompileError.shifted base.offset) result, base.extendedBy after)) :
    Carries base f x x' u := by
  refine ⟨?_, ?_⟩ <;> rw [h]
  · exact hleads
  · exact hmoved

/-! ## Steps composed -/

/-- Steps that only give a result. -/
theorem Carries.pure {f : α → β} {a : α} : Carries base f (Pure.pure a) (Pure.pure (f a)) u :=
  .of_run rfl (.refl u) fun _ => rfl

/-- Steps that fail for the source. -/
theorem Carries.throw {f : α → β} {e : CompileError} (h : e.OfSource) :
    Carries base f (MonadExcept.throw e) (MonadExcept.throw e) u := by
  refine .of_run rfl (.refl u) fun _ => ?_
  rw [mapOutcome, h.shifted]
  rfl

/-- The second of two steps begins where the first one has ended. -/
theorem Carries.bind_of_run {f : α → β} {g : γ → δ} {x : Compile α} {x' : Compile β} {k : α → Compile γ} {k' : β → Compile δ}
    (hx : Carries base f x x' u)
    (hk : ∀ a after, u.LeadsTo after → x.run u = (.ok a, after) → Carries base g (k a) (k' (f a)) after) :
    Carries base g (x >>= k) (x' >>= k') u := by
  obtain ⟨hleads, hmoved⟩ := hx
  rcases hr : x.run u with ⟨e | a, after⟩
  · rw [hr] at hleads hmoved
    refine .of_run (by rw [run_bind, hr]) hleads fun hfit => ?_
    rw [run_bind, hmoved hfit]
    rfl
  · rw [hr] at hleads hmoved
    obtain ⟨hleads', hmoved'⟩ := hk a after hleads hr
    have hrun : (x >>= k).run u = (k a).run after := by rw [run_bind, hr]
    refine .of_run hrun (hleads.trans hleads') fun hfit => ?_
    rw [run_bind, hmoved (Nat.le_trans (Nat.add_le_add_left hleads'.offset _) hfit)]
    exact hmoved' hfit

/-- One step after another. -/
theorem Carries.bind {f : α → β} {g : γ → δ} {x : Compile α} {x' : Compile β} {k : α → Compile γ} {k' : β → Compile δ}
    (hx : Carries base f x x' u) (hk : ∀ a after, u.LeadsTo after → Carries base g (k a) (k' (f a)) after) :
    Carries base g (x >>= k) (x' >>= k') u := hx.bind_of_run fun a after h _ => hk a after h

/-- A step that looks at the session. -/
theorem Carries.get {f : α → β} {k : Session → Compile α} {k' : Session → Compile β}
    (h : Carries base f (k u) (k' (base.extendedBy u)) u) : Carries base f (MonadState.get >>= k) (MonadState.get >>= k') u :=
  ⟨h.leads, h.moved⟩

/-- Steps with their errors placed. -/
theorem Carries.placedAt {f : α → β} {x : Compile α} {x' : Compile β} (position : Position) (h : Carries base f x x' u) :
    Carries base f (placedAt position x) (placedAt position x') u := by
  refine .of_run (run_placedAt position x u) h.leads fun hfit => ?_
  rw [run_placedAt, h.moved hfit]
  rcases (x.run u).1 with e | a
  · simp only [mapOutcome, Except.mapError, e.placedAt_shifted]
  · rfl

/-- A step for each element of a list. -/
theorem Carries.forM {xs : List α} {f : α → β} {k : α → Compile Unit} {k' : β → Compile Unit}
    (h : ∀ a u, Carries base id (k a) (k' (f a)) u) : Carries base id (xs.forM k) ((xs.map f).forM k') u := by
  induction xs generalizing u with
  | nil => exact .pure
  | cons a xs ih => exact (h a u).bind fun _ _ _ => ih

/-- A step in a context of its own leaves the contexts around it alone, so it makes no difference how many there are. -/
theorem Carries.inContext {x : Compile Unit} (h : Carries base id x x { u with loops := {} :: u.loops }) :
    Carries base (LoopContext.behind base.assembler) (inContext x) (inContext x) u := by
  obtain ⟨hleads, hmoved⟩ := h
  rw [Session.extendedBy_openContext] at hmoved
  rcases hr : x.run { u with loops := {} :: u.loops } with ⟨result, after⟩
  rw [hr] at hleads hmoved
  obtain ⟨c, outer, hafter⟩ : ∃ c outer, after.loops = c :: outer := List.exists_cons_of_length_eq_add_one hleads.loops
  have htail : { base.extendedBy after with loops := (base.extendedBy after).loops.tail } =
      base.extendedBy { after with loops := after.loops.tail } := by
    rw [Session.extendedBy, hafter]
    rfl
  have hhead : (base.extendedBy after).loops.headD {} = (after.loops.headD {}).behind base.assembler := by
    rw [Session.extendedBy, hafter]
    rfl
  have hrun := run_inContext x u
  rw [hr] at hrun
  refine .of_run hrun ⟨?_, hleads.offset⟩ fun hfit => ?_
  · rw [List.length_tail]
    exact Nat.sub_eq_of_eq_add hleads.loops
  · rw [run_inContext, hmoved hfit]
    simp only [htail, hhead]
    cases result <;> rfl

/-! ## Writing and filling -/

/-- The offset is that behind the base. -/
theorem carries_offset : Carries base (base.offset + ·) offset offset u := .of_run rfl (.refl u) fun _ => rfl

/-- A step that succeeds and changes the code alone. -/
theorem Carries.of_code {f : α → β} {x : Compile α} {x' : Compile β} {a : α} {code : Assembler}
    (h : x.run u = (.ok a, { u with assembler := code })) (hgrows : u.assembler.offset ≤ code.offset)
    (h' : x'.run (base.extendedBy u) = (.ok (f a), { base.extendedBy u with assembler := base.assembler.append code })) :
    Carries base f x x' u := .of_run h ⟨rfl, hgrows⟩ fun _ => h'

theorem carries_emit (sequence : X64.Sequence) : Carries base id (emit sequence) (emit sequence) u := by
  refine .of_code rfl (u.assembler.offset_le_emitAll sequence) ?_
  rw [← X64.Assembler.emitAll_append]
  rfl

/-- Bytes are embedded the same behind any base, at shifted offsets. -/
theorem carries_embed (bytes : List UInt8) :
    Carries base (ByteRange.shifted base.offset) (embed bytes) (embed bytes) u := by
  refine .of_code rfl (Nat.le_add_right _ _) ?_
  exact congrArg (fun r : Assembler × ByteRange => (Except.ok r.2, { base.extendedBy u with assembler := r.1 }))
    (base.assembler.embed_append u.assembler bytes)

/-- A hole is reserved the same behind any base, and is the hole behind it. -/
theorem carries_reserve (kind : X64.HoleKind) :
    Carries base (Hole.behind base.assembler) (reserve kind) (reserve kind) u := by
  refine .of_code rfl (Nat.le_add_right _ _) ?_
  exact congrArg (fun r : Assembler × Hole kind => (Except.ok r.2, { base.extendedBy u with assembler := r.1 }))
    (base.assembler.reserve_append u.assembler kind)

/-- The code is changed by steps of which one does behind other code what the other one does. -/
theorem carries_patch {change change' : Assembler → Except AssemblyError Assembler}
    (hgrows : ∀ a, change u.assembler = .ok a → u.assembler.offset ≤ a.offset)
    (h : base.offset + u.offset ≤ X64.capacity → change' (base.assembler.append u.assembler) =
      mapOutcome base.assembler.append (AssemblyError.shifted base.offset) (change u.assembler)) :
    Carries base id (patch change) (patch change') u := by
  have hrun := run_patch (s := u) change
  have hrun' := run_patch (s := base.extendedBy u) change'
  rw [show (base.extendedBy u).assembler = base.assembler.append u.assembler from rfl] at hrun'
  rcases hc : change u.assembler with e | a
  · rw [hc] at hrun h
    refine .of_run hrun (.refl u) fun hfit => ?_
    rw [hrun', h hfit]
    rfl
  · rw [hc] at hrun h
    have hle : u.offset ≤ a.offset := hgrows a hc
    refine .of_run hrun ⟨rfl, hle⟩ fun hfit => ?_
    rw [hrun', h (Nat.le_trans (Nat.add_le_add_left hle _) hfit)]
    rfl

/-- A hole is filled behind other code with the displacement that it has alone. -/
theorem carries_fill {kind : X64.HoleKind} (hole : Hole kind) (target : Nat) (instruction : Int32 → X64.Instruction) :
    Carries base id (patch fun a => a.fill hole target instruction)
      (patch fun a => a.fill (hole.behind base.assembler) (base.offset + target) instruction) u := by
  refine carries_patch (fun a ha => ?_) fun _ => X64.Assembler.fill_append _ _ hole target instruction
  rw [X64.Assembler.offset_of_fill ha]

/-- A jump is filled the same behind any base, as its target has moved with it. -/
theorem carries_patchJump (hole : Hole .jump) (target : Nat) :
    Carries base id (patch fun a => a.patchJump hole target)
      (patch fun a => a.patchJump (hole.behind base.assembler) (base.offset + target)) u := carries_fill hole target .jump

theorem carries_landSkip (skip : Hole .branch × Comparison) (target : Nat) :
    Carries base id (landSkip skip target) (landSkip (Prod.map (Hole.behind base.assembler) id skip) (base.offset + target)) u :=
  carries_fill skip.1 target _

theorem carries_jumpBack (target : Nat) : Carries base id (jumpBack target) (jumpBack (base.offset + target)) u :=
  .bind (carries_reserve .jump) fun hole _ _ => carries_patchJump hole target

/-- Code that is written already is as far away behind `base`. -/
theorem carries_emitAddress (dest : X64.Reg) {target : Nat} (h : target ≤ u.offset) :
    Carries base id (emitAddress dest target) (emitAddress dest (base.offset + target)) u := by
  refine carries_patch (fun a ha => ?_) fun hfit => X64.Assembler.address_append _ _ dest ?_
  · split at ha
    · rename_i result hresult
      obtain ⟨d, -, rfl⟩ := X64.emitAddress_eq_ok (ha ▸ hresult)
      exact Nat.le_add_right _ _
    · cases ha
  · exact Nat.le_trans (Nat.add_le_add_left h _) hfit

/-- The innermost context is one of the step's own, and not one of `base`. -/
theorem carries_changeContext (hu : u.loops ≠ []) {g g' : LoopContext → LoopContext}
    (h : ∀ c, g' (c.behind base.assembler) = (g c).behind base.assembler) :
    Carries base id (changeContext g) (changeContext g') u := by
  obtain ⟨assembler, intrinsics, loops, calls, procedures⟩ := u
  cases loops with
  | nil => exact absurd rfl hu
  | cons c outer =>
    refine .of_run rfl ⟨rfl, Nat.le_refl _⟩ fun _ => ?_
    exact congrArg (fun c' => (Except.ok (), Session.mk _ _ (c' :: _) _ _)) (h c)

/-! ## Statements -/

theorem carries_skipUnless (c : Condition) :
    Carries base (Prod.map (Hole.behind base.assembler) id) (skipUnless c) (skipUnless c) u := by
  unfold skipUnless
  rcases c.compare_cases with ⟨-, hc⟩ | ⟨-, hc⟩
  · rw [hc]
    exact .throw nofun
  · rw [hc]
    exact .bind (carries_emit _) fun _ _ _ => .bind (carries_reserve .branch) fun _ _ _ => .pure

/-- The test of a loop, if it has one, is written the same behind any base. -/
theorem carries_mapM_skipUnless (condition : Option Condition) :
    Carries base (Option.map (Prod.map (Hole.behind base.assembler) id)) (condition.mapM skipUnless)
      (condition.mapM skipUnless) u := by
  cases condition with
  | none => exact .pure
  | some c => exact .bind (carries_skipUnless c) fun _ _ _ => .pure

/-- What a guard protects is written the same behind any base if its body is. -/
theorem carries_guarded (guard : Option Condition) {x : Compile Unit} (h : ∀ after, u.LeadsTo after → Carries base id x x after) :
    Carries base id (guarded guard x) (guarded guard x) u := by
  cases guard with
  | none => exact h u (.refl u)
  | some c =>
    refine .bind (carries_skipUnless c) fun skip after hafter => ?_
    exact .bind (h after hafter) fun _ _ _ => .bind carries_offset fun stop _ _ => carries_landSkip skip stop

/-- A text stands in front of the code that prints it. -/
theorem carries_printText (text : String) : Carries base id (printText text) (printText text) u := by
  unfold printText
  refine .bind (carries_reserve .jump) fun hole u₁ _ => ?_
  refine .bind_of_run (carries_embed _) fun range u₂ _ hrun => ?_
  have hstart : range.start ≤ u₂.offset := by
    obtain ⟨hrange, rfl⟩ := Prod.mk.inj hrun
    cases hrange
    exact Nat.le_add_right _ _
  have hlength : (range.shifted base.offset).stop - (range.shifted base.offset).start = range.stop - range.start :=
    Nat.add_sub_add_left _ _ _
  refine .bind (carries_patchJump hole range.stop) fun _ u₃ h₃ => .get (.bind (carries_emit _) fun _ u₄ h₄ => ?_)
  refine .bind (carries_emitAddress .rdi (hstart.trans (h₃.trans h₄).offset)) fun _ _ _ => ?_
  rw [hlength]
  exact .bind (carries_emit _) fun _ _ _ => carries_emit _

/-- An action within a context is written the same behind any base. -/
theorem carries_action (hu : u.loops ≠ []) (position : Position) (a : Action) :
    Carries base id (action position a) (action position a) u := by
  cases a with
  | assign dest source => exact carries_emit _
  | update dest op source => exact carries_emit _
  | compute dest op lhs rhs => exact .throw nofun
  | breakLoop =>
    refine .bind (carries_reserve .jump) fun hole _ h => carries_changeContext (h.loops_ne_nil hu) fun c => ?_
    simp [LoopContext.behind]
  | continueLoop =>
    refine .bind (carries_reserve .jump) fun hole _ h => carries_changeContext (h.loops_ne_nil hu) fun c => ?_
    simp [LoopContext.behind]
  | returnCall => exact carries_emit _
  | call procedure =>
    refine .bind (carries_reserve .call) fun hole after _ => .of_run rfl ⟨rfl, Nat.le_refl _⟩ fun _ => ?_
    exact congrArg (Prod.mk _) (base.extendedBy_noteCall after hole procedure).symm
  | print source => exact .get (carries_emit _)
  | printText text => exact carries_printText text
  | push r => exact carries_emit _
  | pop r => exact carries_emit _

mutual

/-- A statement is carried behind every session while a context is open. -/
theorem carries_statement (st : Statement) {u : Session} (hu : u.loops ≠ []) :
    Carries base id (statement st) (statement st) u := by
  unfold statement
  cases st with
  | action a guard position => exact carries_guarded guard fun u₁ h₁ => carries_action (h₁.loops_ne_nil hu) position a
  | loop condition statements guard position =>
    refine carries_guarded guard fun _ _ => .bind carries_offset fun start _ _ => ?_
    refine .bind (carries_mapM_skipUnless condition) fun exit _ _ => ?_
    refine .bind (carries_body statements (List.cons_ne_nil _ _)).inContext fun context _ _ => ?_
    refine .bind (carries_jumpBack start) fun _ _ _ => .bind carries_offset fun stop _ _ => ?_
    refine .bind (.forM fun jump _ => carries_patchJump jump.1 stop) fun _ _ _ => ?_
    refine .bind (.forM fun jump _ => carries_patchJump jump.1 start) fun _ _ _ => ?_
    cases exit with
    | none => exact .pure
    | some skip => exact carries_landSkip skip stop
  | branch condition thenBody elseBody guard position =>
    refine carries_guarded guard fun u₁ h₁ => .bind (carries_skipUnless condition) fun skip u₂ h₂ => ?_
    have hu₂ := (h₁.trans h₂).loops_ne_nil hu
    refine .bind (carries_body thenBody hu₂) fun _ u₃ h₃ => ?_
    split
    · exact .bind carries_offset fun stop _ _ => carries_landSkip skip stop
    · refine .bind (carries_reserve .jump) fun overElse u₄ h₄ => .bind carries_offset fun elseStart u₅ h₅ => ?_
      have hu₅ := ((h₃.trans h₄).trans h₅).loops_ne_nil hu₂
      refine .bind (carries_body elseBody hu₅) fun _ _ _ => .bind carries_offset fun stop _ _ => ?_
      exact .bind (carries_landSkip skip elseStart) fun _ _ _ => carries_patchJump overElse stop

/-- A body within a context is written the same behind any base. -/
theorem carries_body (statements : List Statement) {u : Session} (hu : u.loops ≠ []) :
    Carries base id (body statements) (body statements) u := by
  unfold body
  cases statements with
  | nil => exact .pure
  | cons st rest =>
    refine .bind ((carries_statement st hu).placedAt st.position) fun _ u₁ h₁ => ?_
    exact carries_body rest (h₁.loops_ne_nil hu)

end

/-! ## Procedures -/

/-- A procedure is carried behind every session. -/
theorem carries_procedure (p : Procedure) (u : Session) : Carries base (base.offset + ·) (procedure p) (procedure p) u := by
  refine .bind carries_offset fun start u₁ _ => ?_
  have hrecord : Carries base id (modify fun s => { s with procedures := s.procedures ++ [(p.name, start)] })
      (modify fun s => { s with procedures := s.procedures ++ [(p.name, base.offset + start)] }) u₁ :=
    .of_run rfl ⟨rfl, Nat.le_refl _⟩ fun _ => congrArg (Prod.mk _) (base.extendedBy_recordProcedure u₁ p.name start).symm
  refine .bind hrecord fun _ _ _ => .bind (carries_body p.body (List.cons_ne_nil _ _)).inContext fun context _ _ => ?_
  rw [LoopContext.firstStray_behind]
  cases context.firstStray? with
  | none => exact .bind (carries_emit _) fun _ _ _ => .pure
  | some position => exact .throw nofun

/-- A procedure leaves the contexts as it finds them, whether it is compiled or not. -/
theorem loops_procedure (p : Procedure) (s : Session) : ((procedure p).run s).2.loops = s.loops := by
  have hkept := (keeps_body p.body).loops_inContext { s with procedures := s.procedures ++ [(p.name, s.offset)] }
  rw [run_procedure]
  unfold procedureBody
  rw [run_bind]
  rcases hr : (inContext (body p.body)).run { s with procedures := s.procedures ++ [(p.name, s.offset)] } with ⟨e | context, t⟩
  · rw [hr] at hkept
    exact hkept
  · rw [hr] at hkept
    simp only
    cases context.firstStray? with
    | none => exact hkept
    | some position => exact hkept

end Compile

/-- The end of a procedure in a session is its end alone, moved behind the code of the session. -/
structure Independent (s : Session) (alone there : Except CompileError Nat × Session) : Prop where
  /-- The procedure begins behind that code, or it is refused for the same fault at the same place of the source. -/
  outcome : there.1 = mapOutcome (s.offset + ·) (CompileError.shifted s.offset) alone.1
  /-- It appends the same bytes, also those written before it is refused. -/
  bytes : there.2.assembler.bytes = s.assembler.bytes ++ alone.2.assembler.bytes
  data : there.2.assembler.data = s.assembler.data ++ alone.2.assembler.data.map (ByteRange.shifted s.offset)
  /-- It calls the same procedures. -/
  calls : there.2.calls = s.calls ++ alone.2.calls.map (Prod.map (Hole.behind s.assembler) id)
  procedures : there.2.procedures = s.procedures ++ alone.2.procedures.map (Prod.map id (s.offset + ·))
  /-- No context of it is left, and those that are open stay as they are. -/
  loops : there.2.loops = s.loops

/-- A procedure is compiled in every session, whatever was compiled or refused before, as in a new one, provided that a buffer has
room for its code behind that of the session. -/
theorem independent_procedure (s : Session) (p : Procedure)
    (hfit : s.offset + ((Compile.procedure p).run (Session.start s.intrinsics)).2.offset ≤ X64.capacity) :
    Independent s ((Compile.procedure p).run (Session.start s.intrinsics)) ((Compile.procedure p).run s) := by
  have hloops := Compile.loops_procedure p s
  have hmoved : (Compile.procedure p).run (s.extendedBy (Session.start s.intrinsics)) = _ :=
    (Compile.carries_procedure p (Session.start s.intrinsics)).moved hfit
  rw [Session.extendedBy_start] at hmoved
  rw [hmoved] at hloops ⊢
  exact ⟨rfl, X64.Assembler.bytes_append _ _, X64.Assembler.data_append _ _, rfl, rfl, hloops⟩

/-- A procedure that prints a text and leaves a loop before it is refused. -/
def refusedProcedure : Procedure where
  name := "late"
  body := [
    .action (.call "main") none ⟨60, 5, 1⟩,
    .loop none [
      .action (.printText "on") none ⟨73, 6, 3⟩,
      .action .breakLoop none ⟨84, 7, 3⟩,
      .action (.compute .rax .add ⟨.immediate 1, ⟨99, 8, 9⟩⟩ ⟨.immediate 2, ⟨103, 8, 13⟩⟩) none ⟨93, 8, 3⟩] none ⟨66, 5, 7⟩]
  position := ⟨55, 4, 6⟩

/-- A procedure that is refused leaves the same behind stranded requests as alone. -/
theorem independent_procedure_stranded :
    (Session.behind ⟨1, 2⟩ strandedRequests).offset +
        ((Compile.procedure refusedProcedure).run (Session.start (Session.behind ⟨1, 2⟩ strandedRequests).intrinsics)).2.offset ≤
      X64.capacity ∧
    ((Compile.procedure refusedProcedure).run (Session.behind ⟨1, 2⟩ strandedRequests)).1 =
      .error ⟨.unimplemented, ⟨93, 8, 3⟩⟩ ∧
    Independent (Session.behind ⟨1, 2⟩ strandedRequests)
      ((Compile.procedure refusedProcedure).run (Session.start (Session.behind ⟨1, 2⟩ strandedRequests).intrinsics))
      ((Compile.procedure refusedProcedure).run (Session.behind ⟨1, 2⟩ strandedRequests)) :=
  ⟨by decide +kernel, by decide +kernel, independent_procedure _ _ (by decide +kernel)⟩

end RegisterCompiler
