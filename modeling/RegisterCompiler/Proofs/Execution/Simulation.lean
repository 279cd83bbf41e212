import RegisterCompiler.Proofs.Execution.Frames

/-!
# The processor follows the meaning

The code of statements does what the statements mean: it prints the same, and leads to the place where they are left, or to a
division that faults. Where the meaning is unfinished, the processor has taken at least one step for every round and every run that
the meaning was given. Both facts are proved together, by induction on the statements inside one round or run
(`follows_body`), and by induction on the number of rounds and runs (`laterFollows_later`).
-/

namespace RegisterCompiler.Machine

open X64 (Instruction Reg)

/-! ## Following an outcome -/

/-- From a state on the processor does what an outcome says: it prints the same, and where statements are left it comes to a state
as wanted. Some steps have been spent before; where the outcome is unfinished, at least the steps due are taken in all, and a
next round is not begun without a step. Behind a misuse of the stack it may do anything. -/
def Follows (env : Environment) (spent due : Nat) (s : State) (o : Outcome) (left : Departure → Scope → State → Prop) : Prop :=
  match o.stop with
  | .left way scope =>
    ∃ n t, Path env n s o.events t ∧ (way = .continueLoop → 0 < spent + n) ∧ left way scope t
  | .divideFault => ∃ n t, Path env n s o.events t ∧ env.step t = .error .divide
  | .stackFault => ∃ n t, Path env n s o.events t
  | .unfinished => ∃ n t, due ≤ spent + n ∧ Path env n s o.events t

section

variable {env : Environment} {spent due n : Nat} {s t : State} {es : List Event} {o : Outcome}
  {left left' : Departure → Scope → State → Prop}

/-- An outcome that only leaves is followed by a state that fits how it is left. -/
theorem Follows.leave {way : Departure} {scope : Scope} (hway : way = .continueLoop → 0 < spent) (h : left way scope s) :
    Follows env spent due s (.leave way scope) left :=
  ⟨0, s, .refl s, hway, h⟩

/-- Where the stack is misused nothing more is asked. -/
theorem Follows.misuse : Follows env spent due s ⟨[], .stackFault⟩ left := ⟨0, s, .refl s⟩

/-- What an outcome prints is printed. -/
theorem Follows.exists_path (h : Follows env spent due s o left) : ∃ n t, Path env n s o.events t := by
  obtain ⟨events, stop⟩ := o
  cases stop with
  | left way scope =>
    obtain ⟨n, t, hpath, _⟩ := h
    exact ⟨n, t, hpath⟩
  | divideFault =>
    obtain ⟨n, t, hpath, _⟩ := h
    exact ⟨n, t, hpath⟩
  | stackFault => exact h
  | unfinished =>
    obtain ⟨n, t, _, hpath⟩ := h
    exact ⟨n, t, hpath⟩

/-- What comes before a path is spent before its end. -/
theorem Path.follows (h : Path env n s es t) (ho : Follows env (spent + n) due t o left) :
    Follows env spent due s ⟨es ++ o.events, o.stop⟩ left := by
  obtain ⟨events, stop⟩ := o
  cases stop with
  | left way scope =>
    obtain ⟨m, u, hpath, hway, hleft⟩ := ho
    exact ⟨n + m, u, h.trans hpath, by rwa [← Nat.add_assoc], hleft⟩
  | divideFault =>
    obtain ⟨m, u, hpath, hstep⟩ := ho
    exact ⟨n + m, u, h.trans hpath, hstep⟩
  | stackFault =>
    obtain ⟨m, u, hpath⟩ := ho
    exact ⟨n + m, u, h.trans hpath⟩
  | unfinished =>
    obtain ⟨m, u, hdue, hpath⟩ := ho
    exact ⟨n + m, u, by rwa [← Nat.add_assoc], h.trans hpath⟩

/-- Steps without an event may be taken before an outcome is followed. -/
theorem Path.follows_silent (h : Path env n s [] t) (ho : Follows env (spent + n) due t o left) : Follows env spent due s o left :=
  h.follows ho

/-- More steps may be spent, and fewer be due. -/
theorem Follows.mono {spent' due' : Nat} (h : Follows env spent due s o left) (hspent : spent ≤ spent')
    (hdue : due' + spent ≤ due + spent') : Follows env spent' due' s o left := by
  obtain ⟨events, stop⟩ := o
  cases stop with
  | left way scope =>
    obtain ⟨m, u, hpath, hway, hleft⟩ := h
    exact ⟨m, u, hpath, fun h => (hway h).trans_le (by omega), hleft⟩
  | divideFault => exact h
  | stackFault => exact h
  | unfinished =>
    obtain ⟨m, u, hdue', hpath⟩ := h
    exact ⟨m, u, by omega, hpath⟩

/-- Where statements are left, silent steps may come after. -/
theorem Follows.extend (h : Follows env spent due s o left)
    (hextend : ∀ way scope t, left way scope t → ∃ m u, Path env m t [] u ∧ left' way scope u) :
    Follows env spent due s o left' := by
  obtain ⟨events, stop⟩ := o
  cases stop with
  | left way scope =>
    obtain ⟨m, u, hpath, hway, hleft⟩ := h
    obtain ⟨k, v, hsilent, hleft'⟩ := hextend way scope u hleft
    have hwhole := hpath.trans hsilent
    rw [List.append_nil] at hwhole
    exact ⟨m + k, v, hwhole, fun h => (hway h).trans_le (by omega), hleft'⟩
  | divideFault => exact h
  | stackFault => exact h
  | unfinished => exact h

/-- An outcome that goes on is followed where what comes after it is. -/
theorem Follows.andThen {next : Departure → Scope → Outcome} (h : Follows env spent due s o left)
    (hnext : ∀ n way scope t, (way = .continueLoop → 0 < spent + n) → left way scope t →
      Follows env (spent + n) due t (next way scope) left') : Follows env spent due s (o.andThen next) left' := by
  obtain ⟨events, stop⟩ := o
  cases stop with
  | left way scope =>
    obtain ⟨m, u, hpath, hway, hleft⟩ := h
    exact hpath.follows (hnext m way scope u hway hleft)
  | divideFault => exact h
  | stackFault => exact h
  | unfinished => exact h

end

/-! ## Where statements are left -/

/-- Where the code of statements in some surroundings leads when they are left: behind it, behind the loop around it, to the first
byte of the loop, or to a return. -/
def Leads (env : Environment) (around : Surroundings) (stop : Nat) (way : Departure) (o : Nat) : Prop :=
  match way with
  | .normal => o = stop
  | .breakLoop => ∃ start, around.loop = some (start, o)
  | .continueLoop => ∃ behind, around.loop = some (o, behind)
  | .returned => env.InstructionAt o .ret

/-- The processor stands where the statements lead, in a state of the scope that they leave. -/
def Frame.Leaves (env : Environment) (frame : Frame) (around : Surroundings) (stop : Nat) (way : Departure) (scope : Scope)
    (t : State) : Prop :=
  ∃ u o, t = u.goto env o ∧ frame.Matches scope u ∧ Leads env around stop way o

/-- The processor has returned from a run of a procedure. -/
def Frame.Returns (env : Environment) (frame : Frame) (back : Nat) (_ : Departure) (scope : Scope) (t : State) : Prop :=
  ∃ u : State, t = u.goto env back ∧ frame.Returned scope.registers u

/-- What happens later is followed, with at least so many steps taken where it is unfinished. -/
structure LaterFollows (env : Environment) (procedure : String → Option Nat) (n : Nat) (later : Later) : Prop where
  rounds : ∀ {frame : Frame} {scope : Scope} {s : State} {around : Surroundings} {start : Nat} {condition : Option Condition}
    {body : List Statement} {guard : Option Condition} {position : Position}, frame.Fits env → around.procedure = procedure →
    env.CodeAt start (Statement.core env.host.intrinsics around start (.loop condition body guard position)) →
    conditionFaults condition = [] → bodyFaults body = [] →
    start + skipSize condition + bodySize env.host.intrinsics body + 5 < env.image.bytes.size → frame.Matches scope s →
    Follows env 0 n (s.goto env start) (later.rounds condition body frame.room scope)
      (frame.Leaves env around (start + skipSize condition + bodySize env.host.intrinsics body + 5))
  procedure : ∀ {frame : Frame} {registers : Register → Int64} {s : State} {name : String} {start back : Nat}, frame.Fits env →
    procedure name = some start → frame.Matches ⟨registers, []⟩ s →
    frame.outer.word frame.top = env.base + UInt64.ofNat back →
    env.codeOffset? (env.base + UInt64.ofNat back) = some back →
    Follows env 0 n (s.goto env start) (later.procedure name frame.room registers) (frame.Returns env back)

/-- The code does not wrap around the address space, the exit lies outside it, and the host's functions lie apart. -/
structure Environment.Proper (env : Environment) : Prop where
  base : env.base.toNat + env.image.bytes.size ≤ 2 ^ 64
  exit : env.codeOffset? env.exit = none
  distinct : env.host.intrinsics.printInteger ≠ env.host.intrinsics.printText

section

variable {env : Environment} {frame : Frame} {scope : Scope} {s : State} {around : Surroundings} {o n : Nat}

/-- A path to the end of a statement follows its being left there. -/
theorem follows_normal {scope' : Scope} {t : State} {es : List Event} {stop k : Nat} (hpath : Path env k s es (t.goto env stop))
    (h : frame.Matches scope' t) {due : Nat} :
    Follows env 0 due s ⟨es, .left .normal scope'⟩ (frame.Leaves env around stop) :=
  ⟨k, _, hpath, (by intro hway; cases hway), t, stop, rfl, h, rfl⟩

/-! ## Conditions -/

/-- The code of a test goes on if the condition is true, and goes to its target if not. -/
theorem path_testPieces (hfits : frame.Fits env) (h : frame.Matches scope s) {c : Condition} (hc : c.faults = []) {target : Nat}
    (hcode : env.CodeAt o (c.testPieces target)) :
    ∃ n, ∃ t : State, Path env n (s.goto env o) []
      (t.goto env (if c.test scope.registers then o + c.testSize else target)) ∧ frame.Matches scope t := by
  obtain ⟨hcompare, hbranch⟩ := Environment.codeAt_append.1 hcode
  rw [piecesSize_plainPieces] at hbranch
  obtain ⟨t, ht, hkeeps, hflags⟩ := performs_compareCode (h.ready hfits) ((Condition.faults_eq_nil_iff c).1 hc)
  rw [h.value, h.value] at hflags
  have htest : holds c.flagComparison.complement.code t.flags = !c.test scope.registers := hflags
  have hpath := (ht.path hcompare).trans ((Environment.codeAt_cons.1 hbranch).1.path_branch t)
  rw [htest, Nat.add_assoc] at hpath
  refine ⟨c.compareCode.length + 1, t, ?_, h.keeps hfits hkeeps⟩
  cases htrue : c.test scope.registers with
  | true =>
    rw [htrue] at hpath
    exact hpath
  | false =>
    rw [htrue] at hpath
    exact hpath

/-- The code of a guard goes on if the guard holds, and goes to its target if not. -/
theorem path_skipPieces (hfits : frame.Fits env) (h : frame.Matches scope s) {condition : Option Condition}
    (hc : conditionFaults condition = []) {target : Nat} (hcode : env.CodeAt o (skipPieces condition target)) :
    ∃ n, ∃ t : State, Path env n (s.goto env o) []
      (t.goto env (if testAll condition scope.registers then o + skipSize condition else target)) ∧ frame.Matches scope t := by
  cases condition with
  | none => exact ⟨0, s, .refl _, h⟩
  | some c => exact path_testPieces hfits h hc hcode

/-! ## Actions -/

/-- A sequence that leads to a state of a scope follows the scope's being left. -/
theorem follows_performs {sequence : X64.Sequence} {scope' : Scope} {t : State} (ht : Performs env sequence s t)
    (h : frame.Matches scope' t) (hcode : env.CodeAt o (plainPieces sequence)) {due : Nat} :
    Follows env 0 due (s.goto env o) (.leave .normal scope') (frame.Leaves env around (o + sequenceSize sequence)) :=
  follows_normal (ht.path hcode) h

/-- The code of an update does what the update means, a fault included. -/
theorem follows_update (hfits : frame.Fits env) (h : frame.Matches scope s) {dest : Register} {op : Operation} {value : Value}
    (hcode : env.CodeAt o (plainPieces (updateRegister dest.hardware op value))) {due : Nat} :
    Follows env 0 due (s.goto env o) (scope.operate dest op (scope.registers dest) (value.eval scope.registers))
      (frame.Leaves env around (o + sequenceSize (updateRegister dest.hardware op value))) := by
  have hdest : (s.get dest.hardware).toInt64 = scope.registers dest := congrArg UInt64.toInt64 (h.registers dest)
  have hvalue : (valueWord s value).toInt64 = value.eval scope.registers := congrArg UInt64.toInt64 (h.value value)
  have hready := h.ready hfits
  unfold Scope.operate
  rw [← hdest, ← hvalue]
  cases hop : op.result? (s.get dest.hardware).toInt64 (valueWord s value).toInt64 with
  | some v =>
    obtain ⟨t, ht, hassigns⟩ := performs_updateRegister hready dest.hardware_ne_rsp op value hop
    exact follows_performs ht (h.assigns hfits hassigns) hcode
  | none => exact (breaks_updateRegister hready dest.hardware op value hop).path hcode

/-- The code of a call runs the procedure and comes back with the stack of its caller. -/
theorem follows_run {later : Later} (hlater : LaterFollows env around.procedure n later) (hfits : frame.Fits env)
    (h : frame.Matches scope s) {name : String} (hcode : env.PieceAt o (.call (around.callTarget name)))
    (hroom : scope.stack.length < frame.room) (hback : o + 5 < env.image.bytes.size) (hsize : env.image.bytes.size ≤ 2 ^ 64) :
    Follows env 0 (n + 1) (s.goto env o) (later.procedure name (frame.room - scope.stack.length - 1) scope.registers)
      fun _ inner t => ∃ u, t = u.goto env (o + 5) ∧ frame.Matches { scope with registers := inner.registers } u := by
  unfold Surroundings.callTarget at hcode
  cases hstart : around.procedure name with
  | none =>
    rw [hstart] at hcode
    exact hcode.1.elim
  | some start =>
    rw [hstart] at hcode
    have hgoto : frame.Matches scope (s.goto env o) := ⟨h.registers, h.pointer, h.stacked, h.pushed, h.outer⟩
    obtain ⟨t, hpush, hmatches, hword, hmemory⟩ := hgoto.enter hfits hroom (env.base + UInt64.ofNat (o + 5))
    have hrun := hlater.procedure (hfits.callee hroom t.memory) hstart hmatches hword
      (Environment.codeOffset?_base_add hsize hback)
    refine (hcode.path_call hpush).follows_silent ?_
    refine (hrun.mono (Nat.zero_le 1) (by omega)).extend fun way inner u hreturns => ?_
    obtain ⟨v, rfl, hreturned⟩ := hreturns
    exact ⟨0, _, .refl _, v, rfl, hgoto.resume hfits hroom hmemory hreturned⟩

/-- The code of an action does what the action means. -/
theorem follows_action (hproper : env.Proper) {later : Later} (hlater : LaterFollows env around.procedure n later)
    (hfits : frame.Fits env) (h : frame.Matches scope s) {a : Action} {position : Position} (hfaults : a.faults position = [])
    (hcode : env.CodeAt o (a.pieces env.host.intrinsics around o position))
    (hbehind : o + a.size env.host.intrinsics < env.image.bytes.size) :
    Follows env 0 (n + 1) (s.goto env o) (a.meaning later frame.room scope)
      (frame.Leaves env around (o + a.size env.host.intrinsics)) := by
  have hready := h.ready hfits
  have hbase := hproper.base
  cases a with
  | assign dest source =>
    have hassigns := assigns_set s dest.hardware (valueWord s source.value)
    have hdoes := does_moveValue env dest.hardware source.value s
    rw [h.value] at hassigns hdoes
    exact follows_performs (.single hdoes) (h.assigns hfits hassigns) hcode
  | update dest op source => exact follows_update hfits h hcode
  | compute dest op lhs rhs => cases hfaults
  | breakLoop =>
    obtain ⟨hpiece, _⟩ := Environment.codeAt_cons.1 hcode
    unfold Surroundings.breakTarget at hpiece
    -- outside of a loop its piece has no target, and so no place in the code
    cases hloop : around.loop with
    | none =>
      rw [hloop] at hpiece
      exact hpiece.1.elim
    | some bounds =>
      rw [hloop] at hpiece
      exact (hpiece.path_jump s).follows (.leave (by intro hway; cases hway) ⟨s, bounds.2, rfl, h, bounds.1, hloop⟩)
  | continueLoop =>
    obtain ⟨hpiece, _⟩ := Environment.codeAt_cons.1 hcode
    unfold Surroundings.continueTarget at hpiece
    cases hloop : around.loop with
    | none =>
      rw [hloop] at hpiece
      exact hpiece.1.elim
    | some bounds =>
      rw [hloop] at hpiece
      exact (hpiece.path_jump s).follows (.leave (fun _ => by omega) ⟨s, bounds.1, rfl, h, bounds.2, hloop⟩)
  | returnCall =>
    obtain ⟨hpiece, _⟩ := Environment.codeAt_cons.1 hcode
    exact .leave (by intro hway; cases hway) ⟨s, o, rfl, h, hpiece.2⟩
  | call name =>
    obtain ⟨hpiece, _⟩ := Environment.codeAt_cons.1 hcode
    rw [Action.meaning]
    -- a call needs a word of the stack, as a push does
    by_cases hroom : scope.stack.length < frame.room
    · rw [if_pos hroom]
      have hrun := follows_run hlater hfits h hpiece hroom hbehind (by omega)
      refine hrun.andThen fun k way inner t hway hleft => ?_
      obtain ⟨u, rfl, hu⟩ := hleft
      exact .leave (by intro hway; cases hway) ⟨u, o + 5, rfl, hu, rfl⟩
    · rw [if_neg hroom]
      exact .misuse
  | print source =>
    obtain ⟨k, t, hpath, hkeeps⟩ := path_printValue hready source.value hcode
    rw [h.value] at hpath
    exact follows_normal hpath (h.keeps hfits hkeeps)
  | printText text =>
    obtain ⟨k, t, hpath, hkeeps⟩ := path_printText hready (utf8Bytes text) hcode hbase hproper.distinct
    rw [piecesSize_textPieces] at hpath
    exact follows_normal hpath (h.keeps hfits hkeeps)
  | push r =>
    rw [Action.meaning]
    by_cases hroom : scope.stack.length < frame.room
    · rw [if_pos hroom]
      obtain ⟨t, hdoes, hmatches⟩ := h.push hfits hroom r
      exact follows_performs (.single hdoes) hmatches hcode
    · rw [if_neg hroom]
      exact .misuse
  | pop r =>
    rw [Action.meaning]
    cases hstack : scope.stack with
    | nil => exact .misuse
    | cons w rest =>
      obtain ⟨t, hdoes, hmatches⟩ := h.pop hfits hstack r
      exact follows_performs (.single hdoes) hmatches hcode

/-! ## Statements -/

/-- The code of statements that have no faults is followed from every state of a scope in the frame. -/
def BodyFollows (env : Environment) (frame : Frame) (procedure : String → Option Nat) (later : Later) (due : Nat)
    (body : List Statement) : Prop :=
  ∀ (around : Surroundings) (o : Nat) (scope : Scope) (s : State), around.procedure = procedure → bodyFaults body = [] →
    env.CodeAt o (bodyPieces env.host.intrinsics around o body) →
    o + bodySize env.host.intrinsics body < env.image.bytes.size → frame.Matches scope s →
    Follows env 0 due (s.goto env o) (bodyMeaning later frame.room body scope)
      (frame.Leaves env around (o + bodySize env.host.intrinsics body))

variable {later : Later} {body : List Statement} {condition : Option Condition}

/-- The code of a loop follows its rounds: where its body is left at its end or for the next round, the next round begins, at least
one step later. -/
theorem follows_loop (hfits : frame.Fits env) (hbody : BodyFollows env frame around.procedure later (n + 1) body)
    {rounds : Scope → Outcome} {guard : Option Condition} {position : Position}
    (hcode : env.CodeAt o (Statement.core env.host.intrinsics around o (.loop condition body guard position)))
    (hrounds : ∀ scope t, frame.Matches scope t → Follows env 0 n (t.goto env o) (rounds scope)
      (frame.Leaves env around (o + skipSize condition + bodySize env.host.intrinsics body + 5)))
    (hcondition : conditionFaults condition = []) (hfaults : bodyFaults body = [])
    (hbehind : o + skipSize condition + bodySize env.host.intrinsics body + 5 < env.image.bytes.size)
    (h : frame.Matches scope s) :
    Follows env 0 (n + 1) (s.goto env o) (loopMeaning condition (bodyMeaning later frame.room body) rounds scope)
      (frame.Leaves env around (o + skipSize condition + bodySize env.host.intrinsics body + 5)) := by
  obtain ⟨first, hfirst⟩ : ∃ first, first = o + skipSize condition := ⟨_, rfl⟩
  obtain ⟨stop, hstop⟩ : ∃ stop, stop = first + bodySize env.host.intrinsics body + 5 := ⟨_, rfl⟩
  rw [Statement.core] at hcode
  simp only [← hfirst] at hcode hrounds hbehind ⊢
  simp only [← hstop] at hcode hrounds hbehind ⊢
  obtain ⟨hrest, hjump⟩ := Environment.codeAt_append.1 hcode
  obtain ⟨hskip, hbodyCode⟩ := Environment.codeAt_append.1 hrest
  rw [piecesSize_append, piecesSize_skipPieces, piecesSize_bodyPieces, ← Nat.add_assoc, ← hfirst] at hjump
  rw [piecesSize_skipPieces, ← hfirst] at hbodyCode
  obtain ⟨hjump, _⟩ := Environment.codeAt_cons.1 hjump
  obtain ⟨k, t, hpath, ht⟩ := path_skipPieces hfits h hcondition hskip
  unfold loopMeaning
  by_cases htest : testAll condition scope.registers = true
  · rw [if_pos htest] at hpath ⊢
    rw [← hfirst] at hpath
    -- one round: what is left of the steps counts down with each jump to the next one
    have hround := hbody (around.inLoop o stop) first scope t rfl hfaults hbodyCode (by omega) ht
    refine hpath.follows ((hround.mono (Nat.zero_le _) (by omega)).andThen fun m way scope u hway hleaves => ?_)
    obtain ⟨v, p, rfl, hv, hleads⟩ := hleaves
    cases way with
    | normal =>
      obtain rfl : p = first + bodySize env.host.intrinsics body := hleads
      exact (hjump.path_jump v).follows ((hrounds scope v hv).mono (Nat.zero_le _) (by omega))
    | continueLoop =>
      obtain ⟨_, hloop⟩ := hleads
      obtain ⟨rfl, _⟩ := Prod.mk.inj (Option.some.inj hloop)
      have := hway rfl
      exact (hrounds scope v hv).mono (Nat.zero_le _) (by omega)
    | breakLoop =>
      obtain ⟨_, hloop⟩ := hleads
      obtain ⟨_, rfl⟩ := Prod.mk.inj (Option.some.inj hloop)
      exact .leave (by intro hway; cases hway) ⟨v, stop, rfl, hv, rfl⟩
    | returned => exact .leave (by intro hway; cases hway) ⟨v, p, rfl, hv, hleads⟩
  · rw [if_neg htest] at hpath ⊢
    exact follows_normal hpath ht

/-- A jump behind statements leads on where they are left normally. -/
theorem Frame.Leaves.over {p stop : Nat} (hjump : env.PieceAt p (.jump (.offset stop))) {way : Departure} {t : State}
    (h : frame.Leaves env around p way scope t) :
    ∃ m u, Path env m t [] u ∧ frame.Leaves env around stop way scope u := by
  obtain ⟨u, q, rfl, hu, hleads⟩ := h
  cases way with
  | normal =>
    obtain rfl : q = p := hleads
    exact ⟨1, _, hjump.path_jump u, u, stop, rfl, hu, rfl⟩
  | _ => exact ⟨0, _, .refl _, u, q, rfl, hu, hleads⟩

/-- The code of a branch follows the body that its condition selects. -/
theorem follows_branch (hfits : frame.Fits env) {thenBody elseBody : List Statement}
    (hthen : BodyFollows env frame around.procedure later (n + 1) thenBody)
    (helse : BodyFollows env frame around.procedure later (n + 1) elseBody)
    {c : Condition} {guard : Option Condition} {position : Position}
    (hcode : env.CodeAt o (Statement.core env.host.intrinsics around o (.branch c thenBody elseBody guard position)))
    (hc : c.faults = []) (hthenFaults : bodyFaults thenBody = []) (helseFaults : bodyFaults elseBody = [])
    (hbehind : o + Statement.coreSize env.host.intrinsics (.branch c thenBody elseBody guard position) < env.image.bytes.size)
    (h : frame.Matches scope s) :
    Follows env 0 (n + 1) (s.goto env o)
      (if c.test scope.registers then bodyMeaning later frame.room thenBody scope
        else bodyMeaning later frame.room elseBody scope)
      (frame.Leaves env around (o + Statement.coreSize env.host.intrinsics (.branch c thenBody elseBody guard position))) := by
  rw [Statement.coreSize] at hbehind ⊢
  rw [Statement.core] at hcode
  by_cases hempty : elseBody.isEmpty = true
  · simp only [hempty, if_true] at hcode hbehind ⊢
    obtain ⟨htestCode, hthenCode⟩ := Environment.codeAt_append.1 hcode
    rw [piecesSize_testPieces] at hthenCode
    obtain ⟨k, t, hpath, ht⟩ := path_testPieces hfits h hc htestCode
    have hend : o + (c.testSize + bodySize env.host.intrinsics thenBody + 0) =
        o + c.testSize + bodySize env.host.intrinsics thenBody := by omega
    rw [hend] at hbehind ⊢
    by_cases htest : c.test scope.registers = true
    · rw [if_pos htest] at hpath ⊢
      have hrun := hthen around _ scope t rfl hthenFaults hthenCode hbehind ht
      exact hpath.follows_silent (hrun.mono (Nat.zero_le _) (by omega))
    · rw [if_neg htest] at hpath ⊢
      rw [List.isEmpty_iff.1 hempty, bodyMeaning]
      exact follows_normal hpath ht
  · simp only [hempty, Bool.false_eq_true, if_false] at hcode hbehind ⊢
    obtain ⟨hrest, helseCode⟩ := Environment.codeAt_append.1 hcode
    obtain ⟨htestCode, hthenCode⟩ := Environment.codeAt_append.1 hrest
    rw [piecesSize_testPieces] at hthenCode
    rw [piecesSize_append, piecesSize_testPieces, piecesSize_bodyPieces, ← Nat.add_assoc] at helseCode
    obtain ⟨hjump, helseCode⟩ := Environment.codeAt_cons.1 helseCode
    obtain ⟨k, t, hpath, ht⟩ := path_testPieces hfits h hc htestCode
    obtain ⟨stop, hstop⟩ : ∃ stop, stop =
        o + c.testSize + bodySize env.host.intrinsics thenBody + 5 + bodySize env.host.intrinsics elseBody := ⟨_, rfl⟩
    have hend : o + (c.testSize + bodySize env.host.intrinsics thenBody + (5 + bodySize env.host.intrinsics elseBody)) = stop := by
      omega
    rw [← hstop] at hjump
    rw [hend] at hbehind ⊢
    by_cases htest : c.test scope.registers = true
    · rw [if_pos htest] at hpath ⊢
      have hrun := hthen around _ scope t rfl hthenFaults hthenCode (by omega) ht
      -- the first body ends with a jump over the second one
      have hover := hrun.extend fun way scope u hleaves => hleaves.over hjump
      exact hpath.follows_silent (hover.mono (Nat.zero_le _) (by omega))
    · rw [if_neg htest] at hpath ⊢
      have hrun := helse around _ scope t rfl helseFaults helseCode (by show _ + 5 + _ < _; omega) ht
      rw [hstop]
      exact hpath.follows_silent (hrun.mono (Nat.zero_le _) (by omega))

mutual

/-- The code of a statement behind its guard is followed. -/
theorem follows_statement (hproper : env.Proper) {procedure : String → Option Nat} (hlater : LaterFollows env procedure n later)
    (hfits : frame.Fits env) (st : Statement) {around : Surroundings} (haround : around.procedure = procedure) {scope : Scope}
    {s : State} {o : Nat} (hfaults : st.coreFaults = []) (hcode : env.CodeAt o (st.core env.host.intrinsics around o))
    (hbehind : o + st.coreSize env.host.intrinsics < env.image.bytes.size) (h : frame.Matches scope s) :
    Follows env 0 (n + 1) (s.goto env o) (st.meaning later frame.room scope)
      (frame.Leaves env around (o + st.coreSize env.host.intrinsics)) := by
  cases st with
  | action a guard position =>
    rw [Statement.meaning]
    exact follows_action hproper (haround ▸ hlater) hfits h hfaults hcode hbehind
  | loop condition body guard position =>
    rw [Statement.coreFaults, List.append_eq_nil_iff] at hfaults
    have hsize : o + Statement.coreSize env.host.intrinsics (.loop condition body guard position) =
        o + skipSize condition + bodySize env.host.intrinsics body + 5 := by
      rw [Statement.coreSize]
      omega
    rw [hsize] at hbehind ⊢
    rw [Statement.meaning]
    exact follows_loop hfits (haround ▸ follows_body hproper hlater hfits body) hcode
      (fun scope t ht => hlater.rounds hfits haround hcode hfaults.1 hfaults.2 hbehind ht) hfaults.1 hfaults.2 hbehind h
  | branch c thenBody elseBody guard position =>
    rw [Statement.coreFaults, List.append_eq_nil_iff, List.append_eq_nil_iff] at hfaults
    rw [Statement.meaning]
    exact follows_branch hfits (haround ▸ follows_body hproper hlater hfits thenBody)
      (haround ▸ follows_body hproper hlater hfits elseBody) hcode hfaults.1.1 hfaults.1.2 hfaults.2 hbehind h

/-- The code of statements is followed. -/
theorem follows_body (hproper : env.Proper) {procedure : String → Option Nat} (hlater : LaterFollows env procedure n later)
    (hfits : frame.Fits env) (body : List Statement) : BodyFollows env frame procedure later (n + 1) body := by
  intro around o scope s haround hfaults hcode hbehind h
  cases body with
  | nil =>
    rw [bodyMeaning]
    exact follows_normal (.refl _) h
  | cons st rest =>
    rw [bodyFaults, List.append_eq_nil_iff, List.append_eq_nil_iff] at hfaults
    obtain ⟨⟨hguard, hcore⟩, hrest⟩ := hfaults
    obtain ⟨stop, hstop⟩ : ∃ stop, stop = o + skipSize st.guard + st.coreSize env.host.intrinsics := ⟨_, rfl⟩
    have hend : o + bodySize env.host.intrinsics (st :: rest) = stop + bodySize env.host.intrinsics rest := by
      rw [bodySize, hstop]
      omega
    rw [hend] at hbehind ⊢
    rw [bodyPieces] at hcode
    simp only [← hstop] at hcode
    obtain ⟨hfirstCode, hrestCode⟩ := Environment.codeAt_append.1 hcode
    obtain ⟨hskipCode, hcoreCode⟩ := Environment.codeAt_append.1 hfirstCode
    rw [piecesSize_append, piecesSize_skipPieces, Statement.piecesSize_core, ← Nat.add_assoc, ← hstop] at hrestCode
    rw [piecesSize_skipPieces] at hcoreCode
    -- the statement itself, or nothing if its guard does not hold
    have hfirst : Follows env 0 (n + 1) (s.goto env o)
        (if testAll st.guard scope.registers then st.meaning later frame.room scope else .leave .normal scope)
        (frame.Leaves env around stop) := by
      obtain ⟨k, t, hpath, ht⟩ := path_skipPieces hfits h hguard hskipCode
      by_cases htest : testAll st.guard scope.registers = true
      · rw [if_pos htest] at hpath ⊢
        have hrun := follows_statement hproper hlater hfits st haround hcore hcoreCode (by omega) ht
        rw [hstop]
        exact hpath.follows_silent (hrun.mono (Nat.zero_le _) (by omega))
      · rw [if_neg htest] at hpath ⊢
        exact follows_normal hpath ht
    rw [bodyMeaning]
    refine hfirst.andThen fun k way inner u hway hleaves => ?_
    obtain ⟨v, p, rfl, hv, hleads⟩ := hleaves
    cases way with
    | normal =>
      obtain rfl : p = stop := hleads
      have hrun := follows_body hproper hlater hfits rest around p inner v haround hrest hrestCode hbehind hv
      exact hrun.mono (Nat.zero_le _) (by omega)
    | breakLoop => exact .leave hway ⟨v, p, rfl, hv, hleads⟩
    | continueLoop => exact .leave hway ⟨v, p, rfl, hv, hleads⟩
    | returned => exact .leave hway ⟨v, p, rfl, hv, hleads⟩

end

/-! ## Procedures -/

/-- A return goes back to the address on top of the stack, unless it is the exit. -/
theorem path_ret {back : Nat} {registers : Register → Int64} (hfits : frame.Fits env) (hcode : env.InstructionAt o .ret)
    (h : frame.Matches ⟨registers, []⟩ s) (hback : frame.outer.word frame.top = env.base + UInt64.ofNat back)
    (hexit : env.base + UInt64.ofNat back ≠ env.exit) :
    ∃ t : State, Path env 1 (s.goto env o) [] (t.goto env back) ∧ frame.Returned registers t := by
  have hspace := hfits.space
  have hbound := hfits.writable.1
  have hpointer : (s.goto env o).get .rsp = UInt64.ofNat frame.top := h.pointer
  have hpop := Environment.popWord_eq hpointer (hfits.writable.mono (by omega) (Nat.le_refl _))
  have hword : (s.goto env o).memory.word frame.top = env.base + UInt64.ofNat back := by
    rw [← hback]
    exact h.outer.word (Nat.le_refl _) hbound
  rw [hword] at hpop
  obtain ⟨t, ht⟩ : ∃ t, t = (s.goto env o).set .rsp (UInt64.ofNat (frame.top + 8)) := ⟨_, rfl⟩
  rw [← ht] at hpop
  refine ⟨t, .single ?_, fun r => ?_, ?_, ?_⟩
  · rw [hcode.step s, Environment.execute, hpop]
    show Except.ok (if env.base + UInt64.ofNat back = env.exit then _ else _) = _
    rw [if_neg hexit]
    rfl
  · rw [ht, State.get_set_of_ne _ _ r.hardware_ne_rsp]
    exact h.registers r
  · rw [ht, State.get_set_self]
  · rw [ht, State.memory_set]
    exact h.outer

/-- The code of a procedure follows its run. -/
theorem follows_procedure (hproper : env.Proper) {procedure : String → Option Nat} (hlater : LaterFollows env procedure n later)
    (hfits : frame.Fits env) {registers : Register → Int64} {back : Nat} (hfaults : bodyFaults body = [])
    (hcode : env.CodeAt o (bodyPieces env.host.intrinsics ⟨none, procedure⟩ o body ++ [.plain .ret]))
    (h : frame.Matches ⟨registers, []⟩ s) (hback : frame.outer.word frame.top = env.base + UInt64.ofNat back)
    (hinside : env.codeOffset? (env.base + UInt64.ofNat back) = some back) :
    Follows env 0 (n + 1) (s.goto env o) ((bodyMeaning later frame.room body ⟨registers, []⟩).andThen afterProcedure)
      (frame.Returns env back) := by
  obtain ⟨hbodyCode, hretCode⟩ := Environment.codeAt_append.1 hcode
  rw [piecesSize_bodyPieces] at hretCode
  have hret : env.InstructionAt (o + bodySize env.host.intrinsics body) .ret := (Environment.codeAt_cons.1 hretCode).1.2
  have hexit : env.base + UInt64.ofNat back ≠ env.exit := by
    intro he
    rw [he, hproper.exit] at hinside
    cases hinside
  have hrun := follows_body hproper hlater hfits body ⟨none, procedure⟩ o _ s rfl hfaults hbodyCode hret.lt h
  refine hrun.andThen fun k way scope u hway hleaves => ?_
  obtain ⟨v, p, rfl, hv, hleads⟩ := hleaves
  have hend : env.InstructionAt p .ret := by
    cases way with
    | normal =>
      obtain rfl : p = o + bodySize env.host.intrinsics body := hleads
      exact hret
    | breakLoop =>
      obtain ⟨_, hloop⟩ := hleads
      cases hloop
    | continueLoop =>
      obtain ⟨_, hloop⟩ := hleads
      cases hloop
    | returned => exact hleads
  obtain ⟨registers, stack⟩ := scope
  unfold afterProcedure
  by_cases hstack : stack = []
  · rw [if_pos hstack]
    subst hstack
    obtain ⟨t, hpath, ht⟩ := path_ret hfits hend hv hback hexit
    exact hpath.follows (.leave (by intro hway; cases hway) ⟨t, rfl, ht⟩)
  · rw [if_neg hstack]
    exact .misuse

end

/-- The procedure that a name's offset belongs to is the first one of the name, and its code stands there. -/
theorem find?_of_procedureOffsets {env : Environment} {intrinsics : Intrinsics} {around : Surroundings} {name : String}
    {procedures : List Procedure} {start o : Nat}
    (hfind : ((procedureOffsets intrinsics start procedures).find? fun p => p.1 == name).map Prod.snd = some o)
    (hcode : env.CodeAt start (proceduresPieces intrinsics around start procedures)) :
    ∃ p, procedures.find? (fun p => p.name == name) = some p ∧ env.CodeAt o (p.pieces intrinsics around o) := by
  induction procedures generalizing start with
  | nil => cases hfind
  | cons q rest ih =>
    obtain ⟨hq, hrest⟩ := Environment.codeAt_append.1 hcode
    rw [Procedure.piecesSize_pieces] at hrest
    rw [procedureOffsets, List.find?_cons] at hfind
    rw [List.find?_cons]
    cases hname : q.name == name with
    | true =>
      simp only [hname] at hfind
      obtain rfl := Option.some.inj hfind
      exact ⟨q, rfl, hq⟩
    | false =>
      simp only [hname] at hfind
      exact ih hfind hrest

/-- However many rounds and runs are carried out, the processor follows them. -/
theorem laterFollows_later {env : Environment} (hproper : env.Proper) {table : ProcedureTable} (hfaults : table.faults = [])
    (hcode : env.CodeAt 0 (table.pieces env.host.intrinsics)) (n : Nat) :
    LaterFollows env (table.offset? env.host.intrinsics) n (table.later n) := by
  have hsound := table.faults_eq_nil_iff.1 hfaults
  have hprocedures := (Environment.codeAt_append.1 hcode).1
  induction n with
  | zero => exact ⟨fun _ _ _ _ _ _ _ => ⟨0, _, Nat.le_refl 0, .refl _⟩, fun _ _ _ _ _ => ⟨0, _, Nat.le_refl 0, .refl _⟩⟩
  | succ n ih =>
    constructor
    · intro frame scope s around start condition body guard position hfits haround hcode hcondition hbody hbehind h
      exact follows_loop hfits (haround ▸ follows_body hproper ih hfits body) hcode
        (fun scope t ht => ih.rounds hfits haround hcode hcondition hbody hbehind ht) hcondition hbody hbehind h
    · intro frame registers s name start back hfits hstart h hback hinside
      obtain ⟨p, hfind, hp⟩ := find?_of_procedureOffsets hstart hprocedures
      have hbody : table.bodyOf name = p.body := by
        unfold ProcedureTable.bodyOf ProcedureTable.get?
        rw [hfind]
        rfl
      have hpfaults := (p.faults_eq_nil_iff).2 (hsound.procedures p (List.mem_of_find?_eq_some hfind))
      unfold Procedure.faults at hpfaults
      rw [List.append_eq_nil_iff] at hpfaults
      show Follows env 0 (n + 1) (s.goto env start) (table.procedureMeaning (table.later n) name frame.room registers) _
      unfold ProcedureTable.procedureMeaning
      rw [hbody]
      exact follows_procedure hproper ih hfits hpfaults.1 hp h hback hinside

end RegisterCompiler.Machine
