import Mathlib
import RegisterCompiler.Proofs.Positions.Unplaced
import RegisterCompiler.Proofs.Session.Written

/-!
# Compiling without positions

A session keeps the positions of open jumps, and its errors carry positions. `Compile.Unplaces f x x'` says that the step `x'`
does without positions what `x` does: begun in a session without positions it ends in one, with the result of `x` less its
positions, or with the same fault. A stray jump is chosen by its position, and an error of the assembler is placed by whether
it has a position yet, but neither choice touches anything but the position that is reported. So a program without positions is
compiled to the same code (`ProcedureTable.compile_unplaced`).
-/

namespace RegisterCompiler

open X64 (Assembler AssemblyError Hole)

/-- A compile error without its position. -/
def CompileError.unplaced (e : CompileError) : CompileError := { e with position := .unknown }

/-- Open jumps without the positions of their statements. -/
def LoopContext.unplaced (c : LoopContext) : LoopContext :=
  ⟨c.breaks.map fun jump => (jump.1, .unknown), c.continues.map fun jump => (jump.1, .unknown)⟩

/-- A session without positions. -/
def Session.unplaced (s : Session) : Session := { s with loops := s.loops.map LoopContext.unplaced }

/-- Placing an error changes nothing but its position. -/
theorem CompileError.placedAt_unplaced (e : CompileError) (p : Position) :
    e.unplaced.placedAt .unknown = (e.placedAt p).unplaced := by
  have hsame : e.unplaced.placedAt .unknown = e.unplaced := by
    unfold placedAt
    split
    · split <;> rfl
    · rfl
  rw [hsame]
  unfold placedAt
  split
  · split <;> rfl
  · rfl

/-- Which stray jump is the first one matters to the position alone. -/
theorem LoopContext.firstStray_unplaced (c : LoopContext) :
    c.unplaced.firstStray? = c.firstStray?.map fun _ => .unknown := by
  have hfold (rest : List Position) : (rest.map fun _ => Position.unknown).foldl Position.earlier .unknown = .unknown := by
    induction rest with
    | nil => rfl
    | cons p rest ih => exact ih
  have hjumps : (c.unplaced.breaks ++ c.unplaced.continues).map Prod.snd =
      ((c.breaks ++ c.continues).map Prod.snd).map fun _ => Position.unknown := by
    simp [LoopContext.unplaced, Function.comp_def]
  rw [firstStray?, firstStray?, hjumps]
  cases (c.breaks ++ c.continues).map Prod.snd with
  | nil => rfl
  | cons p rest => exact congrArg some (hfold rest)

namespace Compile

variable {α β : Type}

/-- A step that does without positions what another one does. -/
def Unplaces (f : α → α) (x x' : Compile α) : Prop :=
  ∀ s : Session, x'.run s.unplaced = (mapOutcome f CompileError.unplaced (x.run s).1, (x.run s).2.unplaced)

/-! ## Steps composed -/

/-- Steps that only give a result. -/
theorem Unplaces.pure {f : α → α} {a a' : α} (h : a' = f a) : Unplaces f (Pure.pure a) (Pure.pure a') := by
  subst h
  intro s
  rfl

/-- Steps that fail, each with its error. -/
theorem Unplaces.throw {f : α → α} {e e' : CompileError} (h : e' = e.unplaced) :
    Unplaces f (MonadExcept.throw e : Compile α) (MonadExcept.throw e') := by
  subst h
  intro s
  rfl

/-- One step after another. -/
theorem Unplaces.bind {f : α → α} {g : β → β} {x x' : Compile α} {k k' : α → Compile β} (h : Unplaces f x x')
    (hk : ∀ a, Unplaces g (k a) (k' (f a))) : Unplaces g (x >>= k) (x' >>= k') := by
  intro s
  rw [run_bind, run_bind, h s]
  rcases x.run s with ⟨e | a, after⟩
  · rfl
  · exact hk a after

/-- Steps that only change the session. -/
theorem Unplaces.modify {f f' : Session → Session} (h : ∀ s, f' s.unplaced = (f s).unplaced) :
    Unplaces id (modify f : Compile Unit) (modify f') := by
  intro s
  rw [run_modify, run_modify, h s]
  rfl

/-- A step that looks at the session. -/
theorem Unplaces.get {f : α → α} {k k' : Session → Compile α} (h : ∀ s : Session, Unplaces f (k s) (k' s.unplaced)) :
    Unplaces f (MonadState.get >>= k) (MonadState.get >>= k') := by
  intro s
  rw [run_bind, run_bind]
  exact h s s

/-- Steps of which the outcome is observed. -/
theorem Unplaces.observe {f : α → α} {x x' : Compile α} (h : Unplaces f x x') :
    Unplaces (mapOutcome f CompileError.unplaced) (observe x) (observe x') := by
  intro s
  rw [run_observe, run_observe, h s]
  rfl

/-- A step for each element of a list. -/
theorem Unplaces.forM {l : List α} {φ : α → α} {k k' : α → Compile Unit} (h : ∀ a, Unplaces id (k a) (k' (φ a))) :
    Unplaces id (l.forM k) ((l.map φ).forM k') := by
  induction l with
  | nil => exact .pure rfl
  | cons a l ih => exact .bind (h a) fun _ => ih

/-! ## Steps that know of no positions -/

theorem unplaces_offset : Unplaces id offset offset := fun _ => rfl

theorem unplaces_emit (sequence : X64.Sequence) : Unplaces id (emit sequence) (emit sequence) := fun _ => rfl

theorem unplaces_embed (bytes : List UInt8) : Unplaces id (embed bytes) (embed bytes) := fun _ => rfl

theorem unplaces_reserve (kind : X64.HoleKind) : Unplaces id (reserve kind) (reserve kind) := fun _ => rfl

theorem unplaces_patch (step : Assembler → Except AssemblyError Assembler) : Unplaces id (patch step) (patch step) := by
  intro s
  rw [run_patch, run_patch, show s.unplaced.assembler = s.assembler from rfl]
  cases step s.assembler <;> rfl

theorem unplaces_jumpBack (target : Nat) : Unplaces id (jumpBack target) (jumpBack target) :=
  .bind (unplaces_reserve .jump) fun _ => unplaces_patch _

theorem unplaces_emitAddress (dest : X64.Reg) (target : Nat) :
    Unplaces id (emitAddress dest target) (emitAddress dest target) := unplaces_patch _

theorem unplaces_landSkip (skip : Hole .branch × Comparison) (target : Nat) :
    Unplaces id (landSkip skip target) (landSkip skip target) := unplaces_patch _

theorem unplaces_printText (text : String) : Unplaces id (printText text) (printText text) := by
  unfold printText
  refine .bind (unplaces_reserve .jump) fun _ => ?_
  refine .bind (unplaces_embed _) fun range => ?_
  refine .bind (unplaces_patch _) fun _ => ?_
  refine .get fun s => ?_
  refine .bind (unplaces_emit _) fun _ => ?_
  refine .bind (unplaces_emitAddress _ _) fun _ => ?_
  exact .bind (unplaces_emit _) fun _ => unplaces_emit _

/-! ## Steps with positions -/

/-- Placing the error of a step is placing it nowhere. -/
theorem unplaces_placedAt {f : α → α} {x x' : Compile α} (p : Position) (h : Unplaces f x x') :
    Unplaces f (placedAt p x) (placedAt .unknown x') := by
  refine .bind h.observe fun result => ?_
  cases result with
  | ok a => exact .pure rfl
  | error e => exact .throw (e.placedAt_unplaced p)

/-- A condition is compiled the same without positions. -/
theorem unplaces_skipUnless (c : Condition) : Unplaces id (skipUnless c) (skipUnless c.unplaced) := by
  have hcompare : c.unplaced.compare = mapOutcome id CompileError.unplaced c.compare := by
    obtain ⟨⟨lhs, p⟩, comparison, ⟨rhs, q⟩, position⟩ := c
    cases lhs <;> cases rhs <;> rfl
  unfold skipUnless
  rw [hcompare]
  cases c.compare with
  | error e => exact .throw rfl
  | ok result => exact .bind (unplaces_emit _) fun _ => .bind (unplaces_reserve .branch) fun _ => .pure rfl

/-- What a guard protects is compiled the same if its body is. -/
theorem unplaces_guarded {x x' : Compile Unit} (guard : Option Condition) (h : Unplaces id x x') :
    Unplaces id (guarded guard x) (guarded (guard.map Condition.unplaced) x') := by
  cases guard with
  | none => exact h
  | some c =>
    refine .bind (unplaces_skipUnless c) fun skip => ?_
    exact .bind h fun _ => .bind unplaces_offset fun stop => unplaces_landSkip skip stop

/-- The innermost loop context, without positions. -/
theorem headD_unplaced (s : Session) : s.unplaced.loops.headD {} = (s.loops.headD {}).unplaced := by
  unfold Session.unplaced
  cases s.loops <;> rfl

/-- The jumps left open by a body are the same but for their positions. -/
theorem unplaces_inContext {x x' : Compile Unit} (h : Unplaces id x x') :
    Unplaces LoopContext.unplaced (inContext x) (inContext x') := by
  refine .bind (.modify fun s => rfl) fun _ => .bind h.observe fun result => .get fun s => ?_
  have htail (s : Session) : { s.unplaced with loops := s.unplaced.loops.tail } =
      ({ s with loops := s.loops.tail } : Session).unplaced := by
    unfold Session.unplaced
    cases s.loops <;> rfl
  refine .bind (.modify htail) fun _ => ?_
  rw [headD_unplaced]
  cases result with
  | ok a => exact .pure rfl
  | error e => exact .throw rfl

/-- Changing the innermost loop is the same but for positions. -/
theorem unplaces_changeContext {f f' : LoopContext → LoopContext} (h : ∀ c, f' c.unplaced = (f c).unplaced) :
    Unplaces id (changeContext f) (changeContext f') := by
  refine .modify fun s => ?_
  rw [headD_unplaced, h]
  unfold Session.unplaced
  cases s.loops <;> rfl

/-- An action is compiled the same without positions. -/
theorem unplaces_action (position : Position) (a : Action) :
    Unplaces id (action position a) (action .unknown a.unplaced) := by
  cases a with
  | assign dest source => exact unplaces_emit [moveValue dest.hardware source.value]
  | update dest op source => exact unplaces_emit (updateRegister dest.hardware op source.value)
  | compute => exact .throw rfl
  | breakLoop =>
    refine .bind (unplaces_reserve .jump) fun hole => unplaces_changeContext fun c => ?_
    simp [LoopContext.unplaced]
  | continueLoop =>
    refine .bind (unplaces_reserve .jump) fun hole => unplaces_changeContext fun c => ?_
    simp [LoopContext.unplaced]
  | returnCall => exact unplaces_emit [.ret]
  | call procedure => exact .bind (unplaces_reserve .call) fun hole => .modify fun s => rfl
  | print source => exact .get fun s => unplaces_emit (printValue s.intrinsics source.value)
  | printText text => exact unplaces_printText text
  | push r => exact unplaces_emit [.push r.hardware]
  | pop r => exact unplaces_emit [.pop r.hardware]

/-! ## Statements and procedures -/

/-- A step for what may be there. -/
theorem Unplaces.mapM {α β : Type} {f : α → α} {k : α → Compile β} {a : Option α} (h : ∀ a, Unplaces id (k a) (k (f a))) :
    Unplaces id (a.mapM k) ((a.map f).mapM k) := by
  cases a with
  | none => exact .pure rfl
  | some a => exact .bind (h a) fun _ => .pure rfl

/-- A body has as many statements without positions, none or some. -/
theorem isEmpty_unplacedBody (statements : List Statement) : (unplacedBody statements).isEmpty = statements.isEmpty := by
  cases statements <;> simp [unplacedBody]

/-- A statement without positions has no position. -/
theorem position_unplaced (s : Statement) : s.unplaced.position = .unknown := by
  cases s <;> (rw [Statement.unplaced]; rfl)

mutual

/-- A statement is compiled the same without positions. -/
theorem unplaces_statement : ∀ s, Unplaces id (statement s) (statement s.unplaced)
  | .action a guard position => by
    rw [Statement.unplaced, statement, statement]
    exact unplaces_guarded guard (unplaces_action position a)
  | .loop condition statements guard _ => by
    rw [Statement.unplaced, statement, statement]
    refine unplaces_guarded guard ?_
    refine .bind unplaces_offset fun start => ?_
    refine .bind (.mapM unplaces_skipUnless) fun exit => ?_
    refine .bind (unplaces_inContext (unplaces_body statements)) fun context => ?_
    refine .bind (unplaces_jumpBack start) fun _ => ?_
    refine .bind unplaces_offset fun stop => ?_
    refine .bind (.forM fun jump => unplaces_patch _) fun _ => ?_
    refine .bind (.forM fun jump => unplaces_patch _) fun _ => ?_
    cases exit with
    | none => exact .pure rfl
    | some skip => exact unplaces_landSkip skip stop
  | .branch condition thenBody elseBody guard _ => by
    rw [Statement.unplaced, statement, statement]
    refine unplaces_guarded guard ?_
    refine .bind (unplaces_skipUnless condition) fun skip => ?_
    refine .bind (unplaces_body thenBody) fun _ => ?_
    rw [isEmpty_unplacedBody]
    by_cases h : elseBody.isEmpty
    · rw [if_pos h, if_pos h]
      exact .bind unplaces_offset fun stop => unplaces_landSkip skip stop
    · rw [if_neg h, if_neg h]
      refine .bind (unplaces_reserve .jump) fun overElse => ?_
      refine .bind unplaces_offset fun elseStart => ?_
      refine .bind (unplaces_body elseBody) fun _ => ?_
      refine .bind unplaces_offset fun stop => ?_
      exact .bind (unplaces_landSkip skip elseStart) fun _ => unplaces_patch _

/-- A body is compiled the same without positions. -/
theorem unplaces_body : ∀ statements, Unplaces id (body statements) (body (unplacedBody statements))
  | [] => by
    rw [unplacedBody, body]
    exact .pure rfl
  | s :: rest => by
    rw [unplacedBody, body, body, position_unplaced]
    exact .bind (unplaces_placedAt s.position (unplaces_statement s)) fun _ => unplaces_body rest

end

/-- A procedure is compiled the same without positions. -/
theorem unplaces_procedure (p : Procedure) : Unplaces id (procedure p) (procedure p.unplaced) := by
  refine .bind unplaces_offset fun start => ?_
  refine .bind (.modify fun s => rfl) fun _ => ?_
  refine .bind (unplaces_inContext (unplaces_body p.body)) fun context => ?_
  rw [LoopContext.firstStray_unplaced]
  cases context.firstStray? with
  | none => exact .bind (unplaces_emit _) fun _ => .pure rfl
  | some position => exact .throw rfl

/-! ## Programs -/

/-- The entry does not read any position. -/
theorem unplaces_trampoline : Unplaces id trampoline trampoline := by
  refine .bind unplaces_offset fun entry => ?_
  refine .bind (unplaces_emit _) fun _ => .bind (unplaces_reserve .call) fun hole => ?_
  exact .bind (.modify fun s => rfl) fun _ => .bind (unplaces_emit _) fun _ => .pure rfl

theorem unplaces_resolveCall (call : Hole .call × String) : Unplaces id (resolveCall call) (resolveCall call) := by
  refine .get fun s => ?_
  rw [show s.unplaced.procedures = s.procedures from rfl]
  cases s.procedures.find? fun p => p.1 == call.2 with
  | none => exact .throw rfl
  | some found => exact unplaces_patch _

theorem unplaces_resolveCalls : Unplaces id resolveCalls resolveCalls := by
  refine .get fun s => .bind (.modify fun s => rfl) fun _ => ?_
  have h : Unplaces id (s.calls.forM resolveCall) ((s.calls.map id).forM resolveCall) := .forM unplaces_resolveCall
  rwa [List.map_id] at h

/-- A program is compiled the same without positions. -/
theorem unplaces_program (table : ProcedureTable) : Unplaces id (program table) (program table.unplaced) := by
  refine .bind (.forM fun p => .bind (unplaces_procedure p) fun _ => .pure rfl) fun _ => ?_
  exact .bind unplaces_trampoline fun entry => .bind unplaces_resolveCalls fun _ => .pure rfl

end Compile

/-- A program without positions is compiled to the same code, or refused for the same fault. -/
theorem ProcedureTable.compile_unplaced (table : ProcedureTable) (intrinsics : Intrinsics) :
    table.unplaced.compile intrinsics = mapOutcome id CompileError.unplaced (table.compile intrinsics) := by
  have hrun : (Compile.program table.unplaced).run (Session.start intrinsics) = _ :=
    Compile.unplaces_program table (Session.start intrinsics)
  rw [compile, compile, hrun]
  rcases (Compile.program table).run (Session.start intrinsics) with ⟨e | entry, s⟩
  · rfl
  · show s.unplaced.finish entry = mapOutcome id CompileError.unplaced (s.finish entry)
    rw [Session.finish, Session.finish, show s.unplaced.assembler = s.assembler from rfl]
    cases s.assembler.finish <;> rfl

end RegisterCompiler
