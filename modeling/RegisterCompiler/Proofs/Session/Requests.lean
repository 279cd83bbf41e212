import RegisterCompiler.Proofs.Assembly.Bench

/-!
# Requests of a session

A session is asked for statements, procedures, the code that a host enters and the targets of its calls, in any order and any
number of times, and it goes on behind a request that fails. Every open hole has one handle. A session holds those of its open
calls and of the jumps out of the loops being compiled; a hole whose handle it does not hold is adrift, and nothing ever fills it.
-/

namespace RegisterCompiler

open X64 (Handle Hole HoleKind Item)

/-! ## Requests -/

/-- Something that a session is asked for. -/
inductive Request where
  | statement (s : Statement)
  | procedure (p : Procedure)
  | trampoline
  | resolve

namespace Request

/-- The step that a request asks for. -/
def step : Request → Compile Unit
  | statement s => Compile.statement s
  | procedure p => discard (Compile.procedure p)
  | trampoline => discard Compile.trampoline
  | resolve => Compile.resolveCalls

/-- How a request ends. -/
def outcome (r : Request) (s : Session) : Except CompileError Unit := (r.step.run s).1

/-- The session behind a request, whether the request fails or not. -/
def next (r : Request) (s : Session) : Session := (r.step.run s).2

/-- A request for a procedure ends as the procedure does, without the offset. -/
theorem outcome_procedure (p : Procedure) (s : Session) :
    (procedure p).outcome s = ((Compile.procedure p).run s).1.map fun _ => () := congrArg Prod.fst (Compile.run_discard _ s)

/-- A request for a procedure leaves what the procedure leaves. -/
theorem next_procedure (p : Procedure) (s : Session) : (procedure p).next s = ((Compile.procedure p).run s).2 :=
  congrArg Prod.snd (Compile.run_discard _ s)

end Request

/-- The session behind requests, of which any may fail. -/
def Session.after (s : Session) (requests : List Request) : Session := requests.foldl (fun s r => r.next s) s

@[simp] theorem Session.after_cons (s : Session) (r : Request) (rest : List Request) :
    s.after (r :: rest) = (r.next s).after rest := rfl

/-- Requests are made one list behind the other. -/
@[simp] theorem Session.after_append (s : Session) (front back : List Request) :
    s.after (front ++ back) = (s.after front).after back := List.foldl_append

/-- The session behind requests that are made of a new one. -/
def Session.behind (intrinsics : Intrinsics) (requests : List Request) : Session := (start intrinsics).after requests

/-! ## Handles -/

/-- The handles of holes that something is noted beside. -/
def handlesOf {kind : HoleKind} {β : Type} (holes : List (Hole kind × β)) : Multiset Handle := ↑(holes.map fun p => p.1.handle)

section

variable {kind : HoleKind} {β : Type}

@[simp] theorem handlesOf_nil : handlesOf ([] : List (Hole kind × β)) = 0 := rfl

@[simp] theorem handlesOf_cons (p : Hole kind × β) (rest : List (Hole kind × β)) :
    handlesOf (p :: rest) = p.1.handle ::ₘ handlesOf rest := rfl

/-- The handles of two lists of holes are those of both. -/
@[simp] theorem handlesOf_append (a b : List (Hole kind × β)) : handlesOf (a ++ b) = handlesOf a + handlesOf b := by
  simp [handlesOf]

/-- Each hole has one handle. -/
@[simp] theorem card_handlesOf (holes : List (Hole kind × β)) : (handlesOf holes).card = holes.length := by
  simp [handlesOf]

/-- The handle of a hole is among those of its list. -/
theorem handle_mem_handlesOf {p : Hole kind × β} {holes : List (Hole kind × β)} (h : p ∈ holes) :
    p.1.handle ∈ handlesOf holes := Multiset.mem_coe.2 (List.mem_map_of_mem h)

end

/-- The jumps that a loop context holds. -/
def LoopContext.jumps (c : LoopContext) : List (Hole .jump × Position) := c.breaks ++ c.continues

@[simp] theorem LoopContext.jumps_empty : ({} : LoopContext).jumps = [] := rfl

/-- The jumps that loop contexts hold. -/
def heldJumps (loops : List LoopContext) : List (Hole .jump × Position) := loops.flatMap LoopContext.jumps

/-- The innermost context adds its own jumps to those of the others. -/
@[simp] theorem heldJumps_cons (c : LoopContext) (rest : List LoopContext) : heldJumps (c :: rest) = c.jumps ++ heldJumps rest :=
  List.flatMap_cons

/-- The innermost context, an empty one if there is none, and those around it hold what all of them hold. -/
theorem heldJumps_eq (loops : List LoopContext) : heldJumps loops = (loops.headD {}).jumps ++ heldJumps loops.tail := by
  cases loops with
  | nil => rfl
  | cons c rest => exact heldJumps_cons c rest

namespace Session

/-- The handles of the holes that are open. -/
def unfilled (s : Session) : Multiset Handle := ↑(X64.holesOf 0 0 s.assembler.items.toList)

/-- The handles that a session holds: those of its open calls, and those of the jumps of its loop contexts. -/
def held (s : Session) : Multiset Handle := handlesOf s.calls + handlesOf (heldJumps s.loops)

/-- The handles of the open holes that the session does not hold. -/
def adrift (s : Session) : Multiset Handle := s.unfilled - s.held

/-- The handles of open holes are as many as the assembler has pending. -/
theorem card_unfilled (s : Session) : s.unfilled.card = s.assembler.pending := X64.length_holesOf 0 0 _

end Session

/-! ## Dropped handles -/

/-- The handles that a request drops by failing: those of the holes that are open behind it, without anyone who holds them, and
that had been held before or had not been there. -/
def Request.dropped (r : Request) (s : Session) : Multiset Handle :=
  match r.outcome s with
  | .ok () => 0
  | .error _ => (r.next s).adrift - s.adrift

/-- The handles that requests drop, one after another. -/
def Session.dropped (s : Session) : List Request → Multiset Handle
  | [] => 0
  | r :: rest => r.dropped s + (r.next s).dropped rest

/-- What two lists of requests drop is what the one drops, and the other behind it. -/
theorem Session.dropped_append (s : Session) (front back : List Request) :
    s.dropped (front ++ back) = s.dropped front + (s.after front).dropped back := by
  induction front generalizing s with
  | nil => exact (Multiset.zero_add _).symm
  | cons r rest ih => rw [List.cons_append, dropped, dropped, ih, Session.after_cons, Multiset.add_assoc]

end RegisterCompiler
