import RegisterCompiler.Compiler.Lowering

/-!
# Compile sessions

Statements and procedures compiled one after another into one piece of code. A jump forward is a hole until its target is
reached: the hole of a guard until its statement ends, the holes of a loop until the loop ends, and the hole of a call until
every procedure has its offset. A session goes on after an error with what had been written by then; a hole that the failing
step alone knew of stays open, and code with an open hole is never finished.
-/

namespace RegisterCompiler

open X64 (Assembler AssemblyError Hole Sequence)

/-- The open jumps of one loop, each with the position of its statement. The outermost context of a procedure belongs to no
loop. -/
structure LoopContext where
  breaks : List (Hole .jump × Position) := []
  continues : List (Hole .jump × Position) := []
  deriving DecidableEq, Repr

/-- Of two positions the one with the smaller offset, the first one if they have the same. -/
def Position.earlier (p q : Position) : Position := if q.offset < p.offset then q else p

/-- The earliest open jump, a break before a continue of the same offset. -/
def LoopContext.firstStray? (c : LoopContext) : Option Position :=
  match (c.breaks ++ c.continues).map Prod.snd with
  | [] => none
  | p :: rest => some (rest.foldl Position.earlier p)

/-- What the statements compiled so far have left behind: the code, the open jumps of the loops being compiled, the innermost
first, the open calls by name, and the offsets of the procedures begun. -/
structure Session where
  assembler : Assembler
  intrinsics : Intrinsics
  loops : List LoopContext := []
  calls : List (Hole .call × String) := []
  procedures : List (String × Nat) := []

/-- A step of a session, which may fail and still leave something behind. -/
abbrev Compile := ExceptT CompileError (StateM Session)

namespace Session

/-- The session that has compiled nothing. -/
def start (intrinsics : Intrinsics) : Session := { assembler := Assembler.empty, intrinsics := intrinsics }

/-- The number of bytes written so far. -/
def offset (s : Session) : Nat := s.assembler.offset

end Session

namespace Compile

/-- The offset of the next byte. -/
def offset : Compile Nat := return (← get).offset

/-- Writes instructions. -/
def emit (sequence : Sequence) : Compile Unit :=
  modify fun s => { s with assembler := s.assembler.emitAll sequence }

/-- Writes data and returns where it is. -/
def embed (bytes : List UInt8) : Compile X64.ByteRange := modifyGet fun s =>
  let (assembler, range) := s.assembler.embed bytes
  (range, { s with assembler := assembler })

/-- Reserves a hole. -/
def reserve (kind : X64.HoleKind) : Compile (Hole kind) := modifyGet fun s =>
  let (assembler, hole) := s.assembler.reserve kind
  (hole, { s with assembler := assembler })

/-- Changes the code by a step that may be refused, and then changes nothing. -/
def patch (step : Assembler → Except AssemblyError Assembler) : Compile Unit := do
  match step (← get).assembler with
  | .ok assembler => modify fun s => { s with assembler := assembler }
  | .error e => throw (CompileError.ofAssembly e)

/-- Jumps to code written before. -/
def jumpBack (target : Nat) : Compile Unit := do
  let hole ← reserve .jump
  patch fun a => a.patchJump hole target

/-- Sets a register to the address of an offset of the code. An offset inside the code never overflows on the way. -/
def emitAddress (dest : X64.Reg) (target : Nat) : Compile Unit :=
  patch fun a =>
    match a.emitAddress dest (UInt64.ofNat target) with
    | .ok result => result
    | .error _ => .error (.outOfRange a.offset target)

/-- What a step comes to, success or error. -/
def observe {α : Type} (step : Compile α) : Compile (Except CompileError α) := ExceptT.lift step.run

/-- A step whose unplaced assembler errors are placed at a position. -/
def placedAt {α : Type} (position : Position) (step : Compile α) : Compile α := do
  match ← observe step with
  | .ok a => return a
  | .error e => throw (e.placedAt position)

/-- Writes the compare of a condition and a hole for the branch that skips what depends on it. -/
def skipUnless (condition : Condition) : Compile (Hole .branch × Comparison) := do
  match condition.compare with
  | .error e => throw e
  | .ok (sequence, comparison) =>
    emit sequence
    return (← reserve .branch, comparison)

/-- Lets a skip go to an offset when its condition does not hold. -/
def landSkip (skip : Hole .branch × Comparison) (target : Nat) : Compile Unit :=
  patch fun a => a.patchBranch skip.1 target skip.2 true

/-- A step that is skipped when the guard does not hold. -/
def guarded (guard : Option Condition) (step : Compile Unit) : Compile Unit := do
  match guard with
  | none => step
  | some condition =>
    let skip ← skipUnless condition
    step
    landSkip skip (← offset)

/-- A step inside a new loop context, which is returned, and dropped also if the step fails. -/
def inContext (step : Compile Unit) : Compile LoopContext := do
  modify fun s => { s with loops := {} :: s.loops }
  let result ← observe step
  let context := (← get).loops.headD {}
  modify fun s => { s with loops := s.loops.tail }
  match result with
  | .ok () => return context
  | .error e => throw e

/-- Changes the innermost loop context; outside any, one comes into being. -/
def changeContext (f : LoopContext → LoopContext) : Compile Unit :=
  modify fun s => { s with loops := f (s.loops.headD {}) :: s.loops.tail }

/-- Prints a text, which is put into the code and jumped over. -/
def printText (text : String) : Compile Unit := do
  let overText ← reserve .jump
  let range ← embed (utf8Bytes text)
  patch fun a => a.patchJump overText range.stop
  let intrinsics := (← get).intrinsics
  emit (enterHost intrinsics.printText .rax)
  emitAddress .rdi range.start
  emit [.moveImmediate .rsi (Int64.ofNat (range.stop - range.start))]
  emit (leaveHost .rax)

/-- Compiles an action at a position. -/
def action (position : Position) : Action → Compile Unit
  | .assign dest source => emit [moveValue dest.hardware source.value]
  | .update dest op source => emit (updateRegister dest.hardware op source.value)
  | .compute _ _ _ _ => throw ⟨.unimplemented, position⟩
  | .breakLoop => do
    let hole ← reserve .jump
    changeContext fun c => { c with breaks := c.breaks ++ [(hole, position)] }
  | .continueLoop => do
    let hole ← reserve .jump
    changeContext fun c => { c with continues := c.continues ++ [(hole, position)] }
  | .returnCall => emit [.ret]
  | .call procedure => do
    let hole ← reserve .call
    modify fun s => { s with calls := s.calls ++ [(hole, procedure)] }
  | .print source => do emit (printValue (← get).intrinsics source.value)
  | .printText text => printText text
  | .push r => emit [.push r.hardware]
  | .pop r => emit [.pop r.hardware]

mutual

/-- Compiles a statement. -/
def statement : Statement → Compile Unit
  | .action a guard position => guarded guard (action position a)
  | .loop condition statements guard _ => guarded guard do
    let start ← offset
    let exit ← condition.mapM skipUnless
    let context ← inContext (body statements)
    jumpBack start
    let stop ← offset
    context.breaks.forM fun jump => patch fun a => a.patchJump jump.1 stop
    context.continues.forM fun jump => patch fun a => a.patchJump jump.1 start
    exit.forM fun skip => landSkip skip stop
  | .branch condition thenBody elseBody guard _ => guarded guard do
    let skip ← skipUnless condition
    body thenBody
    if elseBody.isEmpty then landSkip skip (← offset)
    else
      let overElse ← reserve .jump
      let elseStart ← offset
      body elseBody
      let stop ← offset
      landSkip skip elseStart
      patch fun a => a.patchJump overElse stop

/-- Compiles statements one after another, up to the first that fails. -/
def body : List Statement → Compile Unit
  | [] => return ()
  | s :: rest => do
    placedAt s.position (statement s)
    body rest

end

/-- Compiles a procedure, records where it begins and returns that offset. -/
def procedure (p : Procedure) : Compile Nat := do
  let start ← offset
  modify fun s => { s with procedures := s.procedures ++ [(p.name, start)] }
  let context ← inContext (body p.body)
  match context.firstStray? with
  | some position => throw ⟨.strayLoopControl, position⟩
  | none =>
    emit [.ret]
    return start

/-- The name of the procedure that a program starts with. -/
def mainName : String := "main"

/-- Writes the code that a host enters: it saves every register, calls the main procedure and restores every register. -/
def trampoline : Compile Nat := do
  let entry ← offset
  emit X64.pushAll
  let hole ← reserve .call
  modify fun s => { s with calls := s.calls ++ [(hole, mainName)] }
  emit (X64.popAll ++ [.ret])
  return entry

/-- Lets a call go to the first procedure of a name. -/
def resolveCall (call : Hole .call × String) : Compile Unit := do
  match (← get).procedures.find? fun p => p.1 == call.2 with
  | none => throw ⟨.undefinedProcedure call.2, Position.unknown⟩
  | some (_, target) => patch fun a => a.patchCall call.1 target

/-- Lets every open call go to its procedure. The calls are forgotten also if one of them fails. -/
def resolveCalls : Compile Unit := do
  let calls := (← get).calls
  modify fun s => { s with calls := [] }
  calls.forM resolveCall

end Compile

end RegisterCompiler
