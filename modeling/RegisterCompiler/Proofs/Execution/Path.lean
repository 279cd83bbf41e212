import Mathlib
import RegisterCompiler.Machine.Run

/-!
# Paths of the processor

`Path env n s es t` says that `n` steps lead from `s` to `t` and print `es` on the way. A run from the beginning of a path is known
from the path: it is as far as its steps last on it, and goes on at the end of the path where they last longer. A path on which
nothing is printed may be known with its instructions (`Trace`).
-/

namespace RegisterCompiler.Machine

open X64 (Instruction)

/-- A number of steps lead from one state to another and print some events. -/
inductive Path (env : Environment) : Nat → State → List Event → State → Prop where
  | refl (s : State) : Path env 0 s [] s
  | next {n : Nat} {s t u : State} {es : List Event} :
      env.step s = .ok (.next t) → Path env n t es u → Path env (n + 1) s es u
  | print {n : Nat} {s t u : State} {e : Event} {es : List Event} :
      env.step s = .ok (.print e t) → Path env n t es u → Path env (n + 1) s (e :: es) u

section

variable {env : Environment} {n m : Nat} {s t u : State} {es fs : List Event}

/-- One step without an event is a path. -/
theorem Path.single (h : env.step s = .ok (.next t)) : Path env 1 s [] t := .next h (.refl t)

/-- Paths in a row are a path, with the events of both. -/
theorem Path.trans (h : Path env n s es t) (h' : Path env m t fs u) : Path env (n + m) s (es ++ fs) u := by
  induction h with
  | refl s =>
    rw [Nat.zero_add]
    exact h'
  | next hstep _ ih =>
    rw [Nat.add_right_comm]
    exact .next hstep (ih h')
  | print hstep _ ih =>
    rw [Nat.add_right_comm]
    exact .print hstep (ih h')

/-- Instructions are fetched and carried out one after another, from one state to another, and print nothing. -/
inductive Trace (env : Environment) : List Instruction → State → State → Prop where
  | nil (s : State) : Trace env [] s s
  | cons {i : Instruction} {is : List Instruction} {s t u : State} :
      env.fetch s = .ok (i, i.size) → env.step s = .ok (.next t) → Trace env is t u → Trace env (i :: is) s u

/-- Traces in a row are a trace. -/
theorem Trace.append {is js : List Instruction} (h : Trace env is s t) (h' : Trace env js t u) : Trace env (is ++ js) s u := by
  induction h with
  | nil => exact h'
  | cons hfetch hstep _ ih => exact .cons hfetch hstep (ih h')

/-- A trace is a path of as many steps as it has instructions. -/
theorem Trace.path {is : List Instruction} (h : Trace env is s t) : Path env is.length s [] t := by
  induction h with
  | nil s => exact .refl s
  | cons _ hstep _ ih => exact .next hstep ih

/-- As many steps lead to one state only. -/
theorem Path.unique (h : Path env n s es t) (h' : Path env n s fs u) : es = fs ∧ t = u := by
  induction h generalizing fs with
  | refl s =>
    cases h'
    exact ⟨rfl, rfl⟩
  | next hstep _ ih =>
    cases h' with
    | next hstep' hpath =>
      obtain rfl := Transition.next.inj (Except.ok.inj (hstep.symm.trans hstep'))
      exact ih hpath
    | print hstep' _ => cases hstep.symm.trans hstep'
  | print hstep _ ih =>
    cases h' with
    | next hstep' _ => cases hstep.symm.trans hstep'
    | print hstep' hpath =>
      obtain ⟨rfl, rfl⟩ := Transition.print.inj (Except.ok.inj (hstep.symm.trans hstep'))
      obtain ⟨rfl, rfl⟩ := ih hpath
      exact ⟨rfl, rfl⟩

/-- No step on a path faults. -/
theorem Path.step_ok (h : Path env n s es t) (h' : Path env m s fs u) (hm : m < n) : ∃ transition, env.step u = .ok transition := by
  induction h' generalizing n es with
  | refl s =>
    cases h with
    | refl => exact absurd hm (Nat.lt_irrefl _)
    | next hstep _ => exact ⟨_, hstep⟩
    | print hstep _ => exact ⟨_, hstep⟩
  | next hstep' _ ih =>
    cases h with
    | refl => exact absurd hm (Nat.not_lt_zero _)
    | next hstep hpath =>
      obtain rfl := Transition.next.inj (Except.ok.inj (hstep.symm.trans hstep'))
      exact ih hpath (Nat.lt_of_succ_lt_succ hm)
    | print hstep _ => cases hstep.symm.trans hstep'
  | print hstep' _ ih =>
    cases h with
    | refl => exact absurd hm (Nat.not_lt_zero _)
    | next hstep _ => cases hstep.symm.trans hstep'
    | print hstep hpath =>
      obtain ⟨-, rfl⟩ := Transition.print.inj (Except.ok.inj (hstep.symm.trans hstep'))
      exact ih hpath (Nat.lt_of_succ_lt_succ hm)

/-- Steps lead to one fault only. -/
theorem Path.fault_unique {f g : Fault} (h : Path env n s es t) (hfault : env.step t = .error f) (h' : Path env m s fs u)
    (hfault' : env.step u = .error g) : t = u ∧ f = g := by
  rcases Nat.lt_trichotomy n m with hlt | rfl | hgt
  · obtain ⟨_, hok⟩ := h'.step_ok h hlt
    cases hok.symm.trans hfault
  · obtain ⟨-, rfl⟩ := h.unique h'
    exact ⟨rfl, Except.error.inj (hfault.symm.trans hfault')⟩
  · obtain ⟨_, hok⟩ := h.step_ok h' hgt
    cases hok.symm.trans hfault'

/-- A run that has more steps than a path goes on at the end of the path. -/
theorem Path.runFrom (h : Path env n s es t) (k : Nat) (before : Array Event) :
    env.runFrom (n + k) before s = env.runFrom k (before ++ es.toArray) t := by
  induction h generalizing before with
  | refl s => simp
  | next hstep _ ih =>
    rw [Nat.add_right_comm, Environment.runFrom, hstep]
    exact ih before
  | print hstep _ ih =>
    rw [Nat.add_right_comm, Environment.runFrom, hstep]
    simp only [ih]
    congr 1
    simp

/-- What was printed before a run stays printed. -/
theorem prefix_runFrom (env : Environment) (k : Nat) (before : Array Event) (s : State) :
    before.toList <+: (env.runFrom k before s).events := by
  induction k generalizing before s with
  | zero => exact List.prefix_refl _
  | succ k ih =>
    rw [Environment.runFrom]
    split
    · exact List.prefix_refl _
    · exact ih before _
    · rename_i e t _
      refine List.IsPrefix.trans ?_ (ih (before.push e) t)
      rw [Array.toList_push]
      exact List.prefix_append _ _
    · exact List.prefix_refl _

/-- A run that has the steps of a path prints what the path prints. -/
theorem Path.prefix_runFrom (h : Path env n s es t) {k : Nat} (hk : n ≤ k) : es <+: (env.runFrom k #[] s).events := by
  obtain ⟨j, rfl⟩ := Nat.exists_eq_add_of_le hk
  rw [h.runFrom]
  have hprefix := Machine.prefix_runFrom env j (#[] ++ es.toArray) t
  rwa [Array.toList_append, List.nil_append] at hprefix

/-- A run that has no more steps than a path does not come to an end, and has printed a part of what the path prints. -/
theorem Path.runFrom_of_le (h : Path env n s es t) {k : Nat} (hk : k ≤ n) (before : Array Event) :
    ∃ fs, fs <+: es ∧ env.runFrom k before s = ⟨before.toList ++ fs, .unfinished⟩ := by
  induction h generalizing k before with
  | refl s =>
    obtain rfl := Nat.le_zero.1 hk
    exact ⟨[], List.prefix_refl [], by simp [Environment.runFrom]⟩
  | next hstep _ ih =>
    cases k with
    | zero => exact ⟨[], List.nil_prefix, by simp [Environment.runFrom]⟩
    | succ k =>
      obtain ⟨fs, hfs, hrun⟩ := ih (Nat.le_of_succ_le_succ hk) before
      refine ⟨fs, hfs, ?_⟩
      rw [Environment.runFrom, hstep]
      exact hrun
  | @print n s t u e es hstep _ ih =>
    cases k with
    | zero => exact ⟨[], List.nil_prefix, by simp [Environment.runFrom]⟩
    | succ k =>
      obtain ⟨fs, hfs, hrun⟩ := ih (Nat.le_of_succ_le_succ hk) (before.push e)
      refine ⟨e :: fs, List.cons_prefix_cons.2 ⟨rfl, hfs⟩, ?_⟩
      rw [Environment.runFrom, hstep]
      simpa using hrun

/-- A run ends where a path leads to the last step. -/
theorem Path.runFrom_exit (h : Path env n s es t) (hstep : env.step t = .ok (.exit u)) {k : Nat} (hk : n < k)
    (before : Array Event) : env.runFrom k before s = ⟨before.toList ++ es, .finished u⟩ := by
  obtain ⟨j, rfl⟩ := Nat.exists_eq_add_of_lt hk
  rw [Nat.add_assoc, h.runFrom, Environment.runFrom, hstep]
  simp

/-- A run breaks off where a path leads to a step that faults. -/
theorem Path.runFrom_fault {f : Fault} (h : Path env n s es t) (hstep : env.step t = .error f) {k : Nat} (hk : n < k)
    (before : Array Event) : env.runFrom k before s = ⟨before.toList ++ es, .fault f⟩ := by
  obtain ⟨j, rfl⟩ := Nat.exists_eq_add_of_lt hk
  rw [Nat.add_assoc, h.runFrom, Environment.runFrom, hstep]
  simp

end

end RegisterCompiler.Machine
