import Mathlib
import RegisterCompiler.Compiler.Compiled

/-!
# What a step of a session comes to

`Compile.Yields total step s faults post` says how a step ends that is begun in the session `s` and belongs to code of `total`
bytes. Without faults in the source it leaves a session of which `post` holds; otherwise it reports the first of the `faults`.
There is a third way, an error of the assembler, and it is open only if the code has 2 GiB. Faults are collected in the order in
which the steps meet them (`Yields.bind`), so the fault that is reported is the first one of the whole program.
-/

namespace RegisterCompiler

/-- The number of bytes that no displacement spans. -/
def reachLimit : Nat := 2 ^ 31

/-- An error that the source is to blame for, and not the size of the code. -/
def CompileError.OfSource (e : CompileError) : Prop := ∀ a, e.fault ≠ .assembly a

/-- A position does not change what is wrong. -/
theorem CompileError.fault_placedAt (e : CompileError) (position : Position) : (e.placedAt position).fault = e.fault := by
  unfold placedAt
  split
  · split <;> rfl
  · rfl

/-- A position is given to errors of the assembler only. -/
theorem CompileError.OfSource.placedAt {e : CompileError} (h : e.OfSource) (position : Position) : e.placedAt position = e := by
  unfold CompileError.placedAt
  split
  · rename_i a ha
    exact absurd ha (h a)
  · rfl

namespace Compile

/-- A step begun in a session succeeds without faults and leaves what `post` says, reports the first of the faults, or breaks off
because the whole code is too large. -/
def Yields {α : Type} (total : Nat) (step : Compile α) (s : Session) (faults : List CompileError)
    (post : α → Session → Prop) : Prop :=
  match step.run s with
  | (.ok a, after) => faults = [] ∧ post a after
  | (.error e, _) => (faults.head? = some e ∧ e.OfSource) ∨ ((∃ a, e.fault = .assembly a) ∧ reachLimit ≤ total)

/-- A step behind another one runs if that succeeds. -/
theorem run_bind {α β : Type} (x : Compile α) (f : α → Compile β) (s : Session) :
    (x >>= f).run s = match x.run s with
      | (.ok a, after) => (f a).run after
      | (.error e, after) => (.error e, after) := by
  rw [ExceptT.run_bind]
  show StateT.bind x.run _ s = _
  unfold StateT.bind
  rcases x.run s with ⟨_ | _, after⟩ <;> rfl

theorem run_modify (f : Session → Session) (s : Session) : (modify f : Compile Unit).run s = (.ok (), f s) := rfl

theorem run_get (s : Session) : (get : Compile Session).run s = (.ok s, s) := rfl

/-- What a step comes to is seen without a failure. -/
theorem run_observe {α : Type} (step : Compile α) (s : Session) :
    (observe step).run s = (.ok (step.run s).1, (step.run s).2) := rfl

/-- A step whose result is not needed. -/
theorem run_discard {α : Type} (step : Compile α) (s : Session) :
    (discard step).run s = ((step.run s).1.map fun _ => (), (step.run s).2) := by
  show (step >>= fun _ => Pure.pure ()).run s = _
  rw [run_bind]
  rcases step.run s with ⟨_ | _, after⟩ <;> rfl

/-- A step that is placed does the same, and only its error may differ. -/
theorem run_placedAt {α : Type} (position : Position) (step : Compile α) (s : Session) :
    (placedAt position step).run s = ((step.run s).1.mapError (CompileError.placedAt position), (step.run s).2) := by
  unfold placedAt
  rw [run_bind, run_observe]
  rcases step.run s with ⟨_ | _, after⟩ <;> rfl

/-- A step in a context of its own is taken in it; the context is returned if the step succeeds, and dropped in any case. -/
theorem run_inContext (step : Compile Unit) (s : Session) :
    (inContext step).run s =
      ((step.run { s with loops := {} :: s.loops }).1.map fun _ =>
          (step.run { s with loops := {} :: s.loops }).2.loops.headD {},
        { (step.run { s with loops := {} :: s.loops }).2 with
          loops := (step.run { s with loops := {} :: s.loops }).2.loops.tail }) := by
  unfold inContext
  simp only [run_bind, run_observe, run_modify, run_get]
  cases (step.run { s with loops := {} :: s.loops }).1 <;> rfl

section

variable {α β : Type} {total : Nat} {s : Session} {step : Compile α} {faults : List CompileError} {post : α → Session → Prop}

/-- A step whose end is known yields what holds there. -/
theorem Yields.of_run {a : α} {after : Session} (h : step.run s = (.ok a, after)) (hp : post a after) :
    Yields total step s [] post := by
  unfold Yields
  rw [h]
  exact ⟨rfl, hp⟩

/-- A step that succeeds has no faults and leaves what `post` says. -/
theorem Yields.of_ok (h : Yields total step s faults post) {a : α} {after : Session} (hrun : step.run s = (.ok a, after)) :
    faults = [] ∧ post a after := by
  unfold Yields at h
  rw [hrun] at h
  exact h

/-- A step that fails with an error of the source reports its first fault. -/
theorem Yields.of_error (h : Yields total step s faults post) {e : CompileError} {after : Session}
    (hrun : step.run s = (.error e, after)) (he : e.OfSource) : faults.head? = some e := by
  unfold Yields at h
  rw [hrun] at h
  rcases h with ⟨hhead, -⟩ | ⟨⟨a, ha⟩, -⟩
  · exact hhead
  · exact absurd ha (he a)

/-- A step without faults that belongs to code of less than 2 GiB succeeds. -/
theorem Yields.exists_ok (h : Yields total step s faults post) (hfaults : faults = []) (htotal : total < reachLimit) :
    ∃ a after, step.run s = (.ok a, after) := by
  unfold Yields at h
  rcases hrun : step.run s with ⟨e | a, after⟩
  · rw [hrun] at h
    rcases h with ⟨hhead, -⟩ | ⟨-, hlarge⟩
    · rw [hfaults] at hhead
      cases hhead
    · exact absurd htotal (Nat.not_lt.2 hlarge)
  · exact ⟨a, after, rfl⟩

/-- A step that yields something yields what follows from it. -/
theorem Yields.mono {post' : α → Session → Prop} (h : Yields total step s faults post)
    (hp : ∀ a after, post a after → post' a after) : Yields total step s faults post' := by
  unfold Yields at h ⊢
  split at h
  · exact ⟨h.1, hp _ _ h.2⟩
  · exact h

/-- Two steps report the faults of the first one, then those of the second one. -/
theorem Yields.bind {f : α → Compile β} {faults' : List CompileError} {post' : β → Session → Prop}
    (h : Yields total step s faults post) (hf : ∀ a after, post a after → Yields total (f a) after faults' post') :
    Yields total (step >>= f) s (faults ++ faults') post' := by
  unfold Yields at h
  unfold Yields
  rw [run_bind]
  rcases hr : step.run s with ⟨e | a, after⟩
  · rw [hr] at h
    refine h.imp (fun h => ⟨?_, h.2⟩) id
    rw [List.head?_append, h.1]
    rfl
  · rw [hr] at h
    obtain ⟨rfl, hp⟩ := h
    exact hf a after hp

/-- A step without faults leaves those of the next step. -/
theorem Yields.bind_right {f : α → Compile β} {post' : β → Session → Prop} (h : Yields total step s [] post)
    (hf : ∀ a after, post a after → Yields total (f a) after faults post') : Yields total (step >>= f) s faults post' :=
  h.bind hf

/-- A step that goes on without faults leaves its own. -/
theorem Yields.bind_left {f : α → Compile β} {post' : β → Session → Prop} (h : Yields total step s faults post)
    (hf : ∀ a after, post a after → Yields total (f a) after [] post') : Yields total (step >>= f) s faults post' :=
  List.append_nil faults ▸ h.bind hf

/-- A step that only gives a result has no fault. -/
theorem Yields.pure {a : α} (hp : post a s) : Yields total (Pure.pure a) s [] post := .of_run rfl hp

/-- A step that fails for the source has its own fault. -/
theorem Yields.throw {e : CompileError} (he : e.OfSource) : Yields total (throw e) s [e] post := Or.inl ⟨rfl, he⟩

/-- Placing the error of a step changes nothing about what it yields, as errors of the source have their places. -/
theorem Yields.placedAt (position : Position) (h : Yields total step s faults post) :
    Yields total (Compile.placedAt position step) s faults post := by
  unfold Yields at h ⊢
  rw [run_placedAt]
  rcases hr : step.run s with ⟨e | a, after⟩
  · rw [hr] at h
    rcases h with ⟨hhead, hsource⟩ | ⟨⟨a, ha⟩, hlarge⟩
    · left
      rw [hsource.placedAt]
      exact ⟨hhead, hsource⟩
    · right
      exact ⟨⟨a, (e.fault_placedAt position).trans ha⟩, hlarge⟩
  · rw [hr] at h
    exact h

end

/-- A step inside a new loop context leaves the contexts around it as the step itself leaves them. -/
theorem Yields.inContext {total : Nat} {s : Session} {step : Compile Unit} {faults : List CompileError} {post : LoopContext → Session → Prop}
    (h : Yields total step { s with loops := {} :: s.loops } faults
      fun _ after => post (after.loops.headD {}) { after with loops := after.loops.tail }) :
    Yields total (Compile.inContext step) s faults post := by
  unfold Yields at h ⊢
  rw [run_inContext]
  cases hr : step.run { s with loops := {} :: s.loops } with
  | mk result after =>
    rw [hr] at h
    cases result <;> exact h

end Compile

end RegisterCompiler
