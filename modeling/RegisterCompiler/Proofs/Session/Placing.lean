import RegisterCompiler.Proofs.Session.Stranding

/-!
# Where the assembler's errors are placed

The assembler knows no positions: its errors arise without one and take that of the innermost statement they arose in. `Blames`
is the contract of a step whose errors of the assembler stand at allowed positions only. A statement's stand nowhere or at a
statement inside it (`blames_statement`), those of a body at one of its statements, at any depth (`blames_body`). So do those of
all procedures and of the code that a host enters (`blames_beforeCalls`), and what is left without a position comes from the
targets of the calls (`ofCall_of_resolveCalls`).
-/

namespace RegisterCompiler

open X64 (Assembler AssemblyError Hole HoleKind)

/-- An error for a call: its procedure does not exist, or it is out of reach. -/
def CompileError.OfCall (e : CompileError) : Prop :=
  (∃ name, e = ⟨.undefinedProcedure name, .unknown⟩) ∨ ∃ start target, e = ⟨.assembly (.outOfRange start target), .unknown⟩

namespace Compile

variable {α β : Type} {allowed : Position → Prop} {step : Compile α}

/-- A step whose errors of the assembler stand at allowed positions. -/
def Blames (allowed : Position → Prop) (step : Compile α) : Prop :=
  ∀ s e after, step.run s = (.error e, after) → ¬e.OfSource → allowed e.position

/-! ## Composing steps -/

/-- Errors at allowed positions are at positions allowed by more. -/
theorem Blames.mono {allowed' : Position → Prop} (h : Blames allowed step) (hp : ∀ p, allowed p → allowed' p) :
    Blames allowed' step := fun s e after hrun he => hp _ (h s e after hrun he)

/-- A step that never fails. -/
theorem Blames.of_ok (h : ∀ s, ∃ a after, step.run s = (.ok a, after)) : Blames allowed step := by
  intro s e after hrun
  obtain ⟨a, after', ha⟩ := h s
  rw [ha] at hrun
  cases hrun

/-- A step that fails by faults of the source alone. -/
theorem Blames.throw {e : CompileError} (he : e.OfSource) : Blames allowed (throw e : Compile α) := by
  intro s e' after hrun he'
  obtain rfl : e = e' := Except.error.inj (Prod.mk.inj hrun).1
  exact absurd he he'

/-- One step after another. -/
theorem Blames.bind {f : α → Compile β} (h : Blames allowed step) (hf : ∀ a, Blames allowed (f a)) :
    Blames allowed (step >>= f) := by
  intro s e after hrun
  rw [run_bind] at hrun
  rcases hr : step.run s with ⟨e' | a, middle⟩
  · rw [hr] at hrun
    obtain rfl : e' = e := Except.error.inj (Prod.mk.inj hrun).1
    exact h s e' middle hr
  · rw [hr] at hrun
    exact hf a middle e after hrun

/-- A step for each element of a list. -/
theorem Blames.forM {γ : Type} {xs : List γ} {f : γ → Compile Unit} (h : ∀ x ∈ xs, Blames allowed (f x)) :
    Blames allowed (xs.forM f) := by
  induction xs with
  | nil => exact .of_ok fun _ => ⟨_, _, rfl⟩
  | cons x rest ih => exact (h x (.head _)).bind fun _ => ih fun y hy => h y (.tail _ hy)

/-- A step in a context of its own. -/
theorem Blames.inContext {step : Compile Unit} (h : Blames allowed step) : Blames allowed (inContext step) := by
  intro s e after hrun
  rw [run_inContext] at hrun
  rcases hr : step.run { s with loops := {} :: s.loops } with ⟨e' | _, inner⟩
  · rw [hr] at hrun
    obtain rfl : e' = e := Except.error.inj (Prod.mk.inj hrun).1
    exact h _ e' inner hr
  · rw [hr] at hrun
    cases (Prod.mk.inj hrun).1

/-- A step whose result is discarded. -/
theorem Blames.discard (h : Blames allowed step) : Blames allowed (discard step) :=
  h.bind fun _ => .of_ok fun _ => ⟨_, _, rfl⟩

/-- The statements of a part are among those of the whole, where an error may stand nowhere yet. -/
theorem Blames.within {part whole : List Statement} (h : Blames (· ∈ part.map Statement.position) step) (hsub : part ⊆ whole) :
    Blames (fun p => p = .unknown ∨ p ∈ whole.map Statement.position) step :=
  h.mono fun _ hp => .inr (List.map_subset _ hsub hp)

/-- An error that stands nowhere is placed at the position. -/
theorem Blames.placedAt {position : Position} (h : Blames (fun p => p = .unknown ∨ allowed p) step) (hp : allowed position) :
    Blames allowed (placedAt position step) := by
  intro s e after hrun he
  rw [run_placedAt] at hrun
  rcases hr : step.run s with ⟨e' | _, middle⟩
  · rw [hr] at hrun
    obtain rfl : e'.placedAt position = e := Except.error.inj (Prod.mk.inj hrun).1
    have he' : ¬e'.OfSource := fun hsource => he (by rwa [hsource.placedAt])
    have hallowed := h s e' middle hr he'
    obtain ⟨a, ha⟩ : ∃ a, e'.fault = .assembly a := by simpa [CompileError.OfSource] using he'
    unfold CompileError.placedAt
    rw [ha]
    simp only
    split
    · exact hp
    · exact hallowed.resolve_left ‹_›
  · rw [hr] at hrun
    cases (Prod.mk.inj hrun).1

/-! ## Actions -/

theorem blames_emit (sequence : X64.Sequence) : Blames allowed (emit sequence) := .of_ok fun _ => ⟨_, _, rfl⟩

theorem blames_offset : Blames allowed offset := .of_ok fun _ => ⟨_, _, rfl⟩

theorem blames_reserve (kind : HoleKind) : Blames allowed (reserve kind) := .of_ok fun _ => ⟨_, _, rfl⟩

/-- An error of the assembler stands nowhere until it is placed. -/
theorem blames_patch (h : allowed .unknown) (change : Assembler → Except AssemblyError Assembler) :
    Blames allowed (patch change) := by
  intro s e after hrun _
  rw [run_patch] at hrun
  split at hrun
  · cases (Prod.mk.inj hrun).1
  · obtain rfl := Except.error.inj (Prod.mk.inj hrun).1
    exact h

/-- A test meets no error of the assembler. -/
theorem blames_skipUnless (c : Condition) : Blames allowed (skipUnless c) := by
  unfold skipUnless
  rcases c.compare_cases with ⟨-, hc⟩ | ⟨-, hc⟩
  · rw [hc]
    exact .throw fun a => nofun
  · rw [hc]
    exact (blames_emit _).bind fun _ => (blames_reserve .branch).bind fun _ => .of_ok fun _ => ⟨_, _, rfl⟩

/-- Printing a text meets errors of the assembler that stand nowhere. -/
theorem blames_printText (h : allowed .unknown) (text : String) : Blames allowed (printText text) := by
  unfold printText
  refine (blames_reserve .jump).bind fun hole => Blames.bind (.of_ok fun _ => ⟨_, _, rfl⟩) fun range => ?_
  refine (blames_patch h _).bind fun _ => Blames.bind (.of_ok fun _ => ⟨_, _, rfl⟩) fun s => (blames_emit _).bind fun _ => ?_
  exact (blames_patch h _).bind fun _ => (blames_emit _).bind fun _ => blames_emit _

/-- An action meets errors of the assembler that stand nowhere. -/
theorem blames_action (h : allowed .unknown) (position : Position) (a : Action) : Blames allowed (action position a) := by
  cases a with
  | compute dest op lhs rhs => exact .throw fun a => nofun
  | printText text => exact blames_printText h text
  | _ => exact .of_ok fun _ => ⟨_, _, rfl⟩

/-- A guard meets errors of the assembler that stand nowhere, and those of what it protects. -/
theorem blames_guarded {step : Compile Unit} (h : allowed .unknown) (guard : Option Condition) (hs : Blames allowed step) :
    Blames allowed (guarded guard step) := by
  cases guard with
  | none => exact hs
  | some c => exact (blames_skipUnless c).bind fun _ => hs.bind fun _ => blames_offset.bind fun _ => blames_patch h _

/-! ## Statements -/

mutual

/-- An error of the assembler in a statement stands nowhere yet, or at a statement inside it. -/
theorem blames_statement (st : Statement) :
    Blames (fun p => p = .unknown ∨ p ∈ st.parts.map Statement.position) (statement st) := by
  have hnone : (fun p => p = .unknown ∨ p ∈ st.parts.map Statement.position) .unknown := .inl rfl
  unfold statement
  cases st with
  | action a guard position => exact blames_guarded hnone guard (blames_action hnone position a)
  | loop condition statements guard position =>
    have hbody := (blames_body statements).within (List.subset_cons_self (.loop condition statements guard position) _)
    have htest : ∀ {allowed}, Blames allowed (condition.mapM skipUnless) := by
      cases condition with
      | none => exact .of_ok fun _ => ⟨_, _, rfl⟩
      | some c => exact (blames_skipUnless c).bind fun _ => .of_ok fun _ => ⟨_, _, rfl⟩
    refine blames_guarded hnone guard (blames_offset.bind fun start => htest.bind fun exit => hbody.inContext.bind fun context => ?_)
    refine Blames.bind ((blames_reserve .jump).bind fun hole => blames_patch hnone _) fun _ => ?_
    refine blames_offset.bind fun stop => (Blames.forM fun _ _ => blames_patch hnone _).bind fun _ => ?_
    refine (Blames.forM fun _ _ => blames_patch hnone _).bind fun _ => ?_
    cases exit with
    | none => exact .of_ok fun _ => ⟨_, _, rfl⟩
    | some skip => exact blames_patch hnone fun a => a.patchBranch skip.1 stop skip.2 true
  | branch condition thenBody elseBody guard position =>
    have hthenParts : bodyParts thenBody ⊆ (Statement.branch condition thenBody elseBody guard position).parts := by
      simp [Statement.parts]
    have helseParts : bodyParts elseBody ⊆ (Statement.branch condition thenBody elseBody guard position).parts := by
      simp [Statement.parts]
    have hthen := (blames_body thenBody).within hthenParts
    have helse := (blames_body elseBody).within helseParts
    refine blames_guarded hnone guard ((blames_skipUnless condition).bind fun skip => hthen.bind fun _ => ?_)
    split
    · exact blames_offset.bind fun _ => blames_patch hnone _
    · refine (blames_reserve .jump).bind fun overElse => blames_offset.bind fun elseStart => helse.bind fun _ => ?_
      exact blames_offset.bind fun stop => (blames_patch hnone _).bind fun _ => blames_patch hnone _

/-- An error of the assembler in a body stands at one of its statements, at any depth. -/
theorem blames_body (statements : List Statement) :
    Blames (· ∈ (bodyParts statements).map Statement.position) (body statements) := by
  unfold body
  cases statements with
  | nil => exact .of_ok fun _ => ⟨_, _, rfl⟩
  | cons st rest =>
    have hfirst : Blames (· ∈ st.parts.map Statement.position) (placedAt st.position (statement st)) := by
      refine (blames_statement st).placedAt ?_
      cases st <;> simp [Statement.parts, Statement.position]
    refine Blames.bind (hfirst.mono fun p hp => ?_) fun _ => (blames_body rest).mono fun p hp => ?_
    · rw [bodyParts, List.map_append]
      exact List.mem_append_left _ hp
    · rw [bodyParts, List.map_append]
      exact List.mem_append_right _ hp

end

/-! ## Programs -/

/-- The first part of a program: all its procedures and the code that a host enters. -/
def beforeCalls (table : ProcedureTable) : Compile Nat := do
  table.procedures.forM fun p => discard (procedure p)
  trampoline

/-- A program is all its code, and then the calls led to their procedures. -/
theorem program_eq (table : ProcedureTable) :
    program table = beforeCalls table >>= fun entry => resolveCalls >>= fun _ => Pure.pure entry := by
  simp [program, beforeCalls]

/-- A procedure meets errors of the assembler at its statements only. -/
theorem blames_procedure (p : Procedure) : Blames (· ∈ (bodyParts p.body).map Statement.position) (procedure p) := by
  refine blames_offset.bind fun start => Blames.bind (.of_ok fun _ => ⟨_, _, rfl⟩) fun _ => ?_
  refine (blames_body p.body).inContext.bind fun context => ?_
  split
  · exact .throw fun a => nofun
  · exact (blames_emit _).bind fun _ => .of_ok fun _ => ⟨_, _, rfl⟩

/-- An error of the assembler in procedures stands at one of their statements. -/
theorem blames_beforeCalls (table : ProcedureTable) :
    Blames (fun position => ∃ p ∈ table.procedures, position ∈ (bodyParts p.body).map Statement.position) (beforeCalls table) :=
  (Blames.forM fun p hp => ((blames_procedure p).mono fun _ h => ⟨p, hp, h⟩).discard).bind fun _ =>
    .of_ok fun _ => ⟨_, _, rfl⟩

/-- When all procedures are written, without faults, they have offsets in the code. -/
theorem yields_beforeCalls (table : ProcedureTable) (intrinsics : Intrinsics) :
    Yields (0 + proceduresSize intrinsics table.procedures) (beforeCalls table) (Session.start intrinsics)
      (table.procedures.flatMap Procedure.faults) fun _ u => ∀ b ∈ u.procedures, b.2 ≤ u.offset := by
  refine Yields.bind_left (yields_procedures table.procedures _ (Nat.le_refl _)) fun _ t ht =>
    (yields_trampoline t).mono fun _ u hu b hb => ?_
  have hbegun : u.procedures = procedureOffsets intrinsics 0 table.procedures := by
    rw [hu.2.wrote.procedures, List.append_nil]
    exact ht.wrote.procedures
  have hlast := le_of_mem_procedureOffsets (hbegun ▸ hb)
  rw [hu.2.offset, ht.offset, piecesSize_proceduresPieces]
  exact Nat.le_add_right_of_le hlast

/-! ## The targets of the calls -/

/-- A call is filled in place, or its error is one for a call. -/
theorem resolveCall_cases (call : Hole .call × String) {s : Session} (hs : ∀ b ∈ s.procedures, b.2 ≤ s.offset) :
    (∃ a, a.offset = s.assembler.offset ∧ (resolveCall call).run s = (.ok (), { s with assembler := a })) ∨
      ∃ e, e.OfCall ∧ (resolveCall call).run s = (.error e, s) := by
  rw [run_resolveCall]
  cases htarget : s.procedureOffset? call.2 with
  | none => exact .inr ⟨_, .inl ⟨call.2, rfl⟩, rfl⟩
  | some target =>
    obtain ⟨b, hb, rfl⟩ := Option.map_eq_some_iff.1 htarget
    have hwritten : ¬s.assembler.offset < b.2 := Nat.not_lt.2 (hs b (List.mem_of_find?_eq_some hb))
    simp only
    rw [run_patch, Assembler.patchCall, Assembler.fill, if_neg hwritten]
    split <;> rename_i heq
    · split at heq
      · cases heq
      · obtain rfl := Except.ok.inj heq
        exact .inl ⟨⟨s.assembler.items.modify call.1.index _, s.assembler.offset, _⟩, rfl, rfl⟩
    · split at heq
      · obtain rfl := Except.error.inj heq
        exact .inr ⟨_, .inr ⟨_, _, rfl⟩, rfl⟩
      · cases heq

/-- Leading calls to procedures fails for a call that has none or cannot reach it. -/
theorem ofCall_of_forM_resolveCall {calls : List (Hole .call × String)} {s after : Session} {e : CompileError}
    (hs : ∀ b ∈ s.procedures, b.2 ≤ s.offset) (h : (calls.forM resolveCall).run s = (.error e, after)) : e.OfCall := by
  induction calls generalizing s with
  | nil => exact absurd (Prod.mk.inj h).1 nofun
  | cons call rest ih =>
    have hcons : (call :: rest).forM resolveCall = resolveCall call >>= fun _ => rest.forM resolveCall := rfl
    rw [hcons, run_bind] at h
    rcases resolveCall_cases call hs with ⟨a, ha, hrun⟩ | ⟨e', he', hrun⟩
    · rw [hrun] at h
      have hs' : ∀ b ∈ s.procedures, b.2 ≤ a.offset := fun b hb => (hs b hb).trans_eq ha.symm
      exact ih (s := { s with assembler := a }) hs' h
    · rw [hrun] at h
      obtain rfl := Except.error.inj (Prod.mk.inj h).1
      exact he'

/-- Where the procedures have offsets in the code, an error that resolving calls ends with is one for a call. -/
theorem ofCall_of_resolveCalls {s after : Session} {e : CompileError} (hs : ∀ b ∈ s.procedures, b.2 ≤ s.offset)
    (h : resolveCalls.run s = (.error e, after)) : e.OfCall := by
  unfold resolveCalls at h
  rw [run_bind, run_get] at h
  exact ofCall_of_forM_resolveCall (s := { s with calls := [] }) hs h

end Compile

end RegisterCompiler
