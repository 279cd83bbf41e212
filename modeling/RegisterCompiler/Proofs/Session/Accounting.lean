import RegisterCompiler.Proofs.Session.Stranding

/-!
# The account behind requests

Whatever a session is asked for, and whatever fails, its open holes are those of its open calls, of the jumps that its loop contexts
hold, and of the handles that failing requests dropped (`Accounted.pending`). A request that fails by a fault of the source drops a
handle exactly if a hole is open where the fault is (`Request.dropped_ne_zero_iff`). A handle that is dropped once is dropped for good,
so code with such a hole is never finished; and where code is finished, every call that was ever open leads to the first procedure of
its name (`accounted_requests`).
-/

namespace RegisterCompiler

open X64 (Assembler Filling Handle Hole HoleKind Item)

/-! ## One request -/

namespace Request

/-- The account that the step of a request starts from: a procedure is recorded first, and the calls that are to be resolved are
taken from the session. -/
def begun (r : Request) (a : Account) : Account :=
  match r with
  | procedure p => ⟨{ a.session with procedures := a.session.procedures ++ [(p.name, a.session.offset)] }, a.loose⟩
  | resolve => ⟨{ a.session with calls := [] }, handlesOf a.session.calls + a.loose⟩
  | statement _ | trampoline => a

/-- A request starts from a sound account. -/
theorem sound_begun (r : Request) {a : Account} (h : a.Sound) : (r.begun a).Sound := by
  cases r with
  | resolve =>
    show a.session.unfilled = handlesOf [] + handlesOf (heldJumps a.session.loops) + (handlesOf a.session.calls + a.loose)
    rw [h, Session.held, handlesOf_nil, zero_add]
    ac_rfl
  | _ => exact h

/-- What a request records first only goes on. -/
theorem onward_begun (r : Request) (a : Account) : a.session.Onward (r.begun a).session := by
  cases r with
  | procedure p => exact ⟨List.prefix_refl _, fun _ _ h _ => h, List.prefix_append _ _, rfl⟩
  | _ => exact ⟨List.prefix_refl _, fun _ _ h _ => h, List.prefix_refl _, rfl⟩

/-- What a request records first lets every call lead to a procedure. -/
theorem callsLead_begun (r : Request) {a : Account} (h : a.session.CallsLead) : (r.begun a).session.CallsLead := by
  intro i d hi
  have hitems : (r.begun a).session.assembler = a.session.assembler := by cases r <;> rfl
  rw [hitems] at hi
  obtain ⟨name, hname⟩ := h i d hi
  exact ⟨name, hname.onward (r.onward_begun a)⟩

/-- What a request comes to: it gets from one account to the other by moves, and if it fails it may drop handles. -/
def Moves (r : Request) (s : Session) (loose : Multiset Handle) : Prop :=
  match r.step.run s with
  | (.ok _, after) => Account.Path (r.begun ⟨s, loose⟩) ⟨after, loose⟩
  | (.error _, after) => ∃ dropped, Account.Path (r.begun ⟨s, loose⟩) ⟨after, dropped + loose⟩

/-- A request comes to moves if its step, behind what is recorded first, uses handles and gives none. -/
theorem moves_of_uses {r : Request} {s : Session} (s' : Session) {loose takes : Multiset Handle} {step : Compile Unit}
    (hrun : r.step.run s = step.run s') (hbegun : r.begun ⟨s, loose⟩ = ⟨s', takes + loose⟩)
    (h : Compile.Uses takes step fun _ => 0) : r.Moves s loose := by
  have hs := h s' loose
  unfold Moves
  rw [hrun, hbegun]
  rcases hr : step.run s' with ⟨e | _, after⟩
  · rw [hr] at hs
    exact hs
  · rw [hr] at hs
    simp only [zero_add] at hs
    exact hs

/-- Every request comes to moves. -/
theorem moves (r : Request) (s : Session) (loose : Multiset Handle) : r.Moves s loose := by
  cases r with
  | statement st => exact moves_of_uses s rfl (by rw [zero_add]; rfl) (Compile.uses_statement st)
  | procedure p =>
    exact moves_of_uses { s with procedures := s.procedures ++ [(p.name, s.offset)] } rfl (by rw [zero_add]; rfl)
      (Compile.uses_procedureBody p s.offset).discard
  | trampoline => exact moves_of_uses s rfl (by rw [zero_add]; rfl) Compile.uses_trampoline.discard
  | resolve => exact moves_of_uses { s with calls := [] } rfl rfl (Compile.Uses.forM Compile.uses_resolveCall)

/-- A request that succeeds drops nothing, and the handles that a failing request drops are loose from then on. -/
theorem sound_next (r : Request) {s : Session} {loose : Multiset Handle} (h : Account.Sound ⟨s, loose⟩) :
    Account.Sound ⟨r.next s, r.dropped s + loose⟩ := by
  have hpath := r.moves s loose
  unfold Moves at hpath
  unfold dropped outcome next
  rcases hr : r.step.run s with ⟨e | _, after⟩
  · rw [hr] at hpath
    obtain ⟨dropped, hpath⟩ := hpath
    have hsound := Account.Path.sound hpath (r.sound_begun h)
    rw [← hsound.loose_eq, ← h.loose_eq, add_tsub_cancel_right]
    exact hsound
  · rw [hr] at hpath
    rw [zero_add]
    exact Account.Path.sound hpath (r.sound_begun h)

/-- Whether it fails or not, a request gets to the session behind it by moves. -/
theorem exists_path (r : Request) (s : Session) (loose : Multiset Handle) :
    ∃ loose', Account.Path (r.begun ⟨s, loose⟩) ⟨r.next s, loose'⟩ := by
  have hpath := r.moves s loose
  unfold Moves at hpath
  unfold next
  rcases hr : r.step.run s with ⟨e | _, after⟩
  · rw [hr] at hpath
    obtain ⟨dropped, hpath⟩ := hpath
    exact ⟨_, hpath⟩
  · rw [hr] at hpath
    exact ⟨_, hpath⟩

/-- A session goes on by every request. -/
theorem onward_next (r : Request) {s : Session} {loose : Multiset Handle} (h : Account.Sound ⟨s, loose⟩) :
    s.Onward (r.next s) := by
  obtain ⟨loose', hpath⟩ := r.exists_path s loose
  exact (r.onward_begun ⟨s, loose⟩).trans (Account.Path.onward hpath (r.sound_begun h))

/-- Behind every request all written calls lead to a procedure. -/
theorem callsLead_next (r : Request) {s : Session} {loose : Multiset Handle} (h : Account.Sound ⟨s, loose⟩)
    (hlead : s.CallsLead) : (r.next s).CallsLead := by
  obtain ⟨loose', hpath⟩ := r.exists_path s loose
  exact Account.Path.callsLead hpath (r.sound_begun h) (r.callsLead_begun (a := ⟨s, loose⟩) hlead)

/-- Only a request to resolve the calls takes calls away. -/
theorem calls_next {r : Request} (hr : r ≠ resolve) (s : Session) : s.calls <+: (r.next s).calls := by
  obtain ⟨loose', hpath⟩ := r.exists_path s 0
  have hcalls := Account.Path.calls hpath
  cases r with
  | resolve => exact absurd rfl hr
  | _ => exact hcalls

/-! ## Requests that drop a handle -/

/-- A request that fails while one of its holes is open. -/
inductive FailsOpen (s : Session) : Request → Prop
  /-- A statement fails behind its first test: a longhand behind a guard, or a loop or a branch behind its condition. -/
  | tested (st : Statement) (c : Condition) (test : st.test? = some c) (compared : c.bothImmediate = false) (e : CompileError)
      (fails : (statement st).outcome s = .error e) : FailsOpen s (statement st)
  /-- A procedure has a jump that belongs to no loop. -/
  | stray (p : Procedure) (position : Position) (fails : (procedure p).outcome s = .error ⟨.strayLoopControl, position⟩) :
      FailsOpen s (procedure p)
  /-- A call has no procedure, or one that is too far away. -/
  | unresolved (e : CompileError) (fails : resolve.outcome s = .error e) : FailsOpen s resolve

/-- Whether a request has a hole open where its first fault is. -/
def faultsOpen : Request → Bool
  | statement st => st.faultsOpen
  | procedure p => bodyFaultsOpen p.body
  | trampoline => false
  | resolve => true

/-- What a failing request drops is what is loose behind it beside what was loose before it. -/
theorem dropped_eq_of_path {r : Request} {s : Session} {e : CompileError} (hfails : r.outcome s = .error e)
    {loose dropped : Multiset Handle} (h : Account.Sound ⟨s, loose⟩)
    (hpath : Account.Path (r.begun ⟨s, loose⟩) ⟨r.next s, dropped + loose⟩) : r.dropped s = dropped := by
  have hsound := Account.Path.sound hpath (r.sound_begun h)
  unfold Request.dropped
  rw [hfails]
  simp only
  rw [← hsound.loose_eq, ← h.loose_eq, add_tsub_cancel_right]

/-- A procedure is refused as its request is, and leaves the same session. -/
theorem run_procedure_of_outcome {p : Procedure} {s : Session} {e : CompileError} (h : (procedure p).outcome s = .error e) :
    (Compile.procedure p).run s = (.error e, (procedure p).next s) := by
  rw [outcome_procedure] at h
  rw [next_procedure]
  rcases hr : (Compile.procedure p).run s with ⟨e' | start, after⟩
  · rw [hr] at h
    obtain rfl := Except.error.inj h
    rfl
  · rw [hr] at h
    cases h

/-- Resolving drops a handle whenever it fails. -/
theorem dropped_resolve {s : Session} {loose : Multiset Handle} {e : CompileError} (h : Account.Sound ⟨s, loose⟩)
    (hfails : resolve.outcome s = .error e) : resolve.dropped s ≠ 0 := by
  obtain ⟨dropped, hdropped, hpath⟩ := Compile.strands_forM_resolveCall s.calls { s with calls := [] } loose e (resolve.next s)
    (Prod.ext hfails rfl)
  rwa [dropped_eq_of_path hfails h hpath]

/-- A request that fails by a fault of the source drops a handle exactly if a hole is open where the fault is. -/
theorem dropped_ne_zero_iff {r : Request} {s : Session} {loose : Multiset Handle} {e : CompileError}
    (h : Account.Sound ⟨s, loose⟩) (hfails : r.outcome s = .error e) (he : e.OfSource) :
    r.dropped s ≠ 0 ↔ r.faultsOpen = true := by
  cases r with
  | statement st =>
    obtain ⟨dropped, hpath, hiff, -⟩ := Compile.fault_statement st (Prod.ext hfails rfl : _ = (_, (statement st).next s)) he loose
    rw [dropped_eq_of_path hfails h hpath]
    exact hiff
  | procedure p =>
    obtain ⟨dropped, hpath, hiff⟩ := Compile.fault_procedure (run_procedure_of_outcome hfails) he loose
    rw [dropped_eq_of_path hfails h hpath]
    exact hiff
  | trampoline => cases hfails
  | resolve => exact ⟨fun _ => rfl, fun _ => dropped_resolve h hfails⟩

/-- A request that fails while a hole is open drops a handle. -/
theorem FailsOpen.dropped_ne_zero {s : Session} {r : Request} (h : r.FailsOpen s) {loose : Multiset Handle}
    (hs : Account.Sound ⟨s, loose⟩) : r.dropped s ≠ 0 := by
  cases h with
  | tested st c test compared e fails =>
    obtain ⟨dropped, hdropped, hpath⟩ :=
      Compile.strands_statement test compared s loose e ((statement st).next s) (Prod.ext fails rfl)
    rw [zero_add] at hpath
    rwa [dropped_eq_of_path fails hs hpath]
  | stray p position fails =>
    have hsource : CompileError.OfSource ⟨.strayLoopControl, position⟩ := by
      intro a ha
      cases ha
    have hhead := (Compile.yields_procedure p s (Nat.le_refl _)).of_error (run_procedure_of_outcome fails) hsource
    exact (dropped_ne_zero_iff hs fails hsource).2 (Procedure.faultsOpen_of_stray hhead)
  | unresolved e fails => exact dropped_resolve hs fails

end Request

/-! ## Any number of requests -/

namespace Session

variable {s : Session} {loose : Multiset Handle}

/-- Behind any requests the open holes are those held, those dropped, and those that were loose before. -/
theorem sound_after (h : Account.Sound ⟨s, loose⟩) (requests : List Request) :
    Account.Sound ⟨s.after requests, s.dropped requests + loose⟩ := by
  induction requests generalizing s loose with
  | nil => rwa [dropped, zero_add]
  | cons r rest ih =>
    have := ih (r.sound_next h)
    rwa [dropped, add_comm (r.dropped s), add_assoc]

/-- A session goes on by any requests. -/
theorem onward_after (h : Account.Sound ⟨s, loose⟩) (requests : List Request) : s.Onward (s.after requests) := by
  induction requests generalizing s loose with
  | nil => exact .refl s
  | cons r rest ih => exact (r.onward_next h).trans (ih (r.sound_next h))

/-- Behind any requests all written calls lead to a procedure. -/
theorem callsLead_after (h : Account.Sound ⟨s, loose⟩) (hlead : s.CallsLead) (requests : List Request) :
    (s.after requests).CallsLead := by
  induction requests generalizing s loose with
  | nil => exact hlead
  | cons r rest ih => exact ih (r.sound_next h) (r.callsLead_next h hlead)

end Session

/-! ## Calls that are resolved -/

/-- A call that is open stands where its handle says. -/
theorem size_before_call {s : Session} {loose : Multiset Handle} (h : Account.Sound ⟨s, loose⟩) {call : Hole .call × String}
    (hcall : call ∈ s.calls) : call.1.index < s.assembler.items.toList.length ∧
      X64.itemsSize (s.assembler.items.toList.take call.1.index) = call.1.offset := by
  have hmem : call.1.handle ∈ s.unfilled := by
    rw [show s.unfilled = s.held + loose from h]
    exact Multiset.mem_add.2 (.inl (Multiset.mem_add.2 (.inl (handle_mem_handlesOf hcall))))
  obtain ⟨before, behind, hitems, hhole⟩ := exists_hole_of_mem_unfilled hmem
  rw [hhole, hitems]
  simp

/-- Filling the hole of a call lets it lead to the procedure that is given. -/
theorem leads_patchCall {s : Session} {hole : Hole .call} {name : String} {target : Nat} {a : Assembler}
    (h : hole.handle ∈ s.unfilled) (htarget : s.procedureOffset? name = some target)
    (ha : s.assembler.patchCall hole target = .ok a) : Session.Leads { s with assembler := a } hole.index name := by
  obtain ⟨before, behind, d, -, hitems, rfl, hd⟩ := items_patch h (show Filling.call.patch s.assembler hole target = .ok a from ha)
  refine ⟨d, target, ?_, htarget, ?_⟩
  · simp [hitems, Filling.instruction]
  · simpa [hitems, HoleKind.size] using hd

/-- Where the calls are resolved, each leads to the first procedure of its name. -/
theorem leads_of_resolved {calls : List (Hole .call × String)} {s after : Session} {loose : Multiset Handle}
    (h : Account.Sound ⟨s, handlesOf calls + loose⟩) (hrun : (calls.forM Compile.resolveCall).run s = (.ok (), after)) :
    ∀ call ∈ calls, after.Leads call.1.index call.2 := by
  induction calls generalizing s with
  | nil => exact fun call hcall => absurd hcall List.not_mem_nil
  | cons call rest ih =>
    rw [List.forM_eq_forM, List.forM_cons, Compile.run_bind, Compile.run_resolveCall] at hrun
    rcases htarget : s.procedureOffset? call.2 with _ | target
    · rw [htarget] at hrun
      cases hrun
    rw [htarget] at hrun
    simp only [Compile.run_patch] at hrun
    rcases ha : s.assembler.patchCall call.1 target with e | a
    · rw [ha] at hrun
      cases hrun
    rw [ha] at hrun
    simp only at hrun
    rw [handlesOf_cons, Multiset.cons_add] at h
    have hmove : Account.Move ⟨s, call.1.handle ::ₘ (handlesOf rest + loose)⟩ ⟨{ s with assembler := a }, handlesOf rest + loose⟩ :=
      .fill s _ call.1 target .call a ha fun _ => ⟨call.2, htarget⟩
    have hsound := hmove.sound h
    have huses : Compile.Uses (handlesOf rest) (rest.forM Compile.resolveCall) fun _ => 0 := .forM Compile.uses_resolveCall
    have hrest := huses { s with assembler := a } loose
    rw [← List.forM_eq_forM] at hrun
    rw [hrun] at hrest
    intro other hother
    rcases List.mem_cons.1 hother with rfl | hother
    · exact (leads_patchCall h.mem_unfilled htarget ha).onward (Account.Path.onward hrest hsound)
    · exact ih hsound hrun other hother

namespace Session

/-- While nothing is dropped, an open call stays open until it is resolved. -/
theorem open_or_leads {s : Session} {loose : Multiset Handle} (h : Account.Sound ⟨s, loose⟩) {requests : List Request}
    (hdropped : s.dropped requests = 0) {call : Hole .call × String} (hcall : call ∈ s.calls) :
    call ∈ (s.after requests).calls ∨ (s.after requests).Leads call.1.index call.2 := by
  induction requests generalizing s loose with
  | nil => exact .inl hcall
  | cons r rest ih =>
    obtain ⟨hfirst, hrest⟩ := add_eq_zero.1 hdropped
    have hsound := r.sound_next h
    by_cases hr : r = .resolve
    · right
      have hbegun := Request.sound_begun .resolve h
      rcases hrun : (s.calls.forM Compile.resolveCall).run { s with calls := [] } with ⟨e | _, after⟩
      · have hfails : Request.FailsOpen s .resolve := .unresolved e (congrArg Prod.fst hrun)
        exact absurd (hr ▸ hfirst) (hfails.dropped_ne_zero h)
      · have hnext : r.next s = after := by
          rw [hr]
          exact congrArg Prod.snd hrun
        rw [after_cons, hnext]
        rw [hnext] at hsound
        exact (leads_of_resolved hbegun hrun call hcall).onward (onward_after hsound rest)
    · exact ih hsound hrest ((Request.calls_next hr s).subset hcall)

end Session

/-! ## Finished code -/

/-- The call at an offset of finished code leads to the first procedure of a name. -/
def Compiled.CallLeads (c : Compiled) (offset : Nat) (name : String) : Prop :=
  ∃ d target, X64.decode (c.code.bytes.drop offset) = .ok (.call d, 5) ∧ c.procedureOffset? name = some target ∧
    ((offset + 5 : Nat) : Int) + d.toInt = target

/-- Code is finished exactly if no hole is open. -/
theorem Session.finish_cases (s : Session) (entry : Nat) :
    (s.assembler.pending = 0 ∧
      s.finish entry = .ok ⟨⟨s.assembler.bytes, s.assembler.data⟩, entry, s.procedures, s.intrinsics⟩) ∨
    (s.assembler.pending ≠ 0 ∧ s.finish entry = .error (CompileError.ofAssembly (.unfilled s.assembler.pending))) := by
  unfold finish X64.Assembler.finish
  by_cases h : s.assembler.pending = 0
  · exact .inl ⟨h, by rw [if_pos h]⟩
  · exact .inr ⟨h, by rw [if_neg h]⟩

/-- What finished code consists of. -/
theorem Session.eq_of_finish {s : Session} {entry : Nat} {c : Compiled} (h : s.finish entry = .ok c) :
    c = ⟨⟨s.assembler.bytes, s.assembler.data⟩, entry, s.procedures, s.intrinsics⟩ := by
  rcases s.finish_cases entry with ⟨-, hok⟩ | ⟨-, herror⟩
  · rw [hok] at h
    exact (Except.ok.inj h).symm
  · rw [herror] at h
    cases h

/-- The bytes behind the first items are those of the others. -/
theorem drop_flatMap_encode (items : List Item) (i : Nat) :
    (items.flatMap Item.encode).drop (X64.itemsSize (items.take i)) = (items.drop i).flatMap Item.encode := by
  have hsplit : items.flatMap Item.encode = (items.take i).flatMap Item.encode ++ (items.drop i).flatMap Item.encode := by
    rw [← List.flatMap_append, List.take_append_drop]
  rw [hsplit, ← X64.length_flatMap_encode, List.drop_left]

/-- An instruction is read where it was written. -/
theorem Session.decode_of_finish {s : Session} {entry i : Nat} {c : Compiled} {instruction : X64.Instruction}
    (h : s.finish entry = .ok c) (hi : s.assembler.items.toList[i]? = some (.instruction instruction)) :
    X64.decode (c.code.bytes.drop (X64.itemsSize (s.assembler.items.toList.take i))) = .ok (instruction, instruction.size) := by
  obtain ⟨hlt, hget⟩ := List.getElem?_eq_some_iff.1 hi
  rw [eq_of_finish h]
  show X64.decode ((s.assembler.items.toList.flatMap Item.encode).drop _) = _
  rw [drop_flatMap_encode, List.drop_eq_getElem_cons hlt, hget, List.flatMap_cons]
  exact X64.decode_encode_append instruction _

/-- A call that leads to a procedure in a session does so in the finished code. -/
theorem Session.Leads.callLeads {s : Session} {i offset entry : Nat} {name : String} {c : Compiled} (h : s.Leads i name)
    (hoffset : X64.itemsSize (s.assembler.items.toList.take i) = offset) (hfinish : s.finish entry = .ok c) :
    c.CallLeads offset name := by
  obtain ⟨d, target, hi, htarget, hd⟩ := h
  refine ⟨d, target, ?_, ?_, hoffset ▸ hd⟩
  · rw [← hoffset]
    exact Session.decode_of_finish hfinish hi
  · rw [Session.eq_of_finish hfinish]
    exact htarget

/-- The open holes behind requests, counted. -/
theorem Session.pending_after {s : Session} {loose : Multiset Handle} (h : Account.Sound ⟨s, loose⟩) (requests : List Request) :
    (s.after requests).assembler.pending = (s.after requests).calls.length + (heldJumps (s.after requests).loops).length +
      ((s.dropped requests).card + loose.card) := by
  have hcard := congrArg Multiset.card (show (s.after requests).unfilled = _ from sound_after h requests)
  simpa [card_unfilled, held] using hcard

/-- Where code is finished, every call that was ever open leads to its procedure. -/
theorem Session.leads_of_finish {s : Session} {loose : Multiset Handle} (h : Account.Sound ⟨s, loose⟩) {requests : List Request}
    {entry : Nat} {c : Compiled} (hfinish : (s.after requests).finish entry = .ok c) {call : Hole .call × String}
    (hcall : call ∈ s.calls) : (s.after requests).Leads call.1.index call.2 := by
  have hpending := pending_after h requests
  rcases finish_cases (s.after requests) entry with ⟨hzero, -⟩ | ⟨-, herror⟩
  · have hnone : s.dropped requests = 0 := Multiset.card_eq_zero.1 (by omega)
    have hcalls : (s.after requests).calls = [] := List.length_eq_zero_iff.1 (by omega)
    rcases open_or_leads h hnone hcall with hopen | hleads
    · rw [hcalls] at hopen
      exact absurd hopen List.not_mem_nil
    · exact hleads
  · rw [herror] at hfinish
    cases hfinish

/-- What holds behind requests that are made of a new session, in any order and whatever fails. -/
structure Accounted (intrinsics : Intrinsics) (requests : List Request) : Prop where
  /-- The handle of each open hole is held by the session or was dropped by one failing request. -/
  handles : (Session.behind intrinsics requests).unfilled =
    (Session.behind intrinsics requests).held + (Session.start intrinsics).dropped requests
  /-- The open holes are as many as the open calls, the jumps that the loop contexts hold, and the handles that failing requests have
  dropped. -/
  pending : (Session.behind intrinsics requests).assembler.pending =
    (Session.behind intrinsics requests).calls.length + (heldJumps (Session.behind intrinsics requests).loops).length +
      ((Session.start intrinsics).dropped requests).card
  /-- A request that fails behind a test, with a jump that belongs to no loop or on a call drops a handle. -/
  dropped : ∀ front r back, requests = front ++ r :: back → r.FailsOpen (Session.behind intrinsics front) →
    r.dropped (Session.behind intrinsics front) ≠ 0
  /-- A request that fails by a fault of the source drops a handle exactly if a hole is open where the fault is. -/
  faults : ∀ front r back e, requests = front ++ r :: back → r.outcome (Session.behind intrinsics front) = .error e → e.OfSource →
    (r.dropped (Session.behind intrinsics front) ≠ 0 ↔ r.faultsOpen = true)
  /-- Behind a request that drops a handle, whatever was asked for since, no code is finished. -/
  refused : ∀ front r back, requests = front ++ r :: back → r.dropped (Session.behind intrinsics front) ≠ 0 →
    ∀ entry, ∃ n, (Session.behind intrinsics requests).finish entry = .error (CompileError.ofAssembly (.unfilled n))
  /-- In finished code every call that was ever open leads to the first procedure of its name. -/
  resolved : ∀ entry c, (Session.behind intrinsics requests).finish entry = .ok c →
    ∀ front back, requests = front ++ back → ∀ call ∈ (Session.behind intrinsics front).calls,
      c.CallLeads call.1.offset call.2

/-- The account of a session, whatever it is asked for. -/
theorem accounted_requests (intrinsics : Intrinsics) (requests : List Request) : Accounted intrinsics requests := by
  have hstart := Account.sound_start intrinsics
  have hpending := Session.pending_after hstart requests
  rw [Multiset.card_zero, Nat.add_zero] at hpending
  constructor
  case handles =>
    have hsound := Session.sound_after hstart requests
    rw [Multiset.add_zero] at hsound
    exact hsound
  case pending => exact hpending
  case dropped =>
    rintro front r back rfl hfails
    exact hfails.dropped_ne_zero (Session.sound_after hstart front)
  case faults =>
    rintro front r back e rfl hfails he
    exact Request.dropped_ne_zero_iff (Session.sound_after hstart front) hfails he
  case refused =>
    rintro front r back rfl hdropped entry
    rcases Session.finish_cases (Session.behind intrinsics (front ++ r :: back)) entry with ⟨hzero, -⟩ | ⟨-, herror⟩
    · have hcard : (r.dropped (Session.behind intrinsics front)).card ≠ 0 := by simpa using hdropped
      unfold Session.behind at hzero hcard
      rw [hzero, Session.dropped_append, Session.dropped, Multiset.card_add, Multiset.card_add] at hpending
      omega
    · exact ⟨_, herror⟩
  case resolved =>
    rintro entry c hfinish front back rfl call hcall
    have hfront : Account.Sound ⟨Session.behind intrinsics front, _⟩ := Session.sound_after hstart front
    unfold Session.behind at hfinish
    rw [Session.after_append] at hfinish
    obtain ⟨hindex, hoffset⟩ := size_before_call hfront hcall
    refine (Session.leads_of_finish hfront hfinish hcall).callLeads ?_ hfinish
    rw [(Session.onward_after hfront back).itemsSize_take (Nat.le_of_lt hindex)]
    exact hoffset

/-- Requests of which two drop a handle: the call of a procedure that is missing, and a longhand behind a guard. A break outside every
loop and the call of the main procedure stay open. -/
def strandedRequests : List Request := [
  .statement (.action (.call "missing") none ⟨0, 1, 1⟩),
  .resolve,
  .statement (.action .breakLoop none ⟨14, 2, 1⟩),
  .statement (.action (.compute .rax .add ⟨.immediate 1, ⟨42, 3, 22⟩⟩ ⟨.immediate 2, ⟨46, 3, 26⟩⟩)
    (some ⟨⟨.register .rax, ⟨25, 3, 5⟩⟩, .less, ⟨.immediate 1, ⟨31, 3, 11⟩⟩, ⟨25, 3, 5⟩⟩) ⟨36, 3, 16⟩),
  .trampoline]

/-- Requests that leave nothing open: a procedure calls one that follows it. -/
def settledRequests : List Request := [
  .procedure ⟨"main", [.action (.call "tail") none ⟨12, 1, 13⟩], ⟨5, 1, 6⟩⟩,
  .procedure ⟨"tail", [], ⟨32, 2, 6⟩⟩,
  .trampoline,
  .resolve]

/-- Stranded requests leave holes that are held and holes that are dropped; settled ones leave none, and are finished. -/
theorem accounted_requests_samples :
    ((Session.behind ⟨1, 2⟩ strandedRequests).assembler.pending = 4 ∧
      (Session.behind ⟨1, 2⟩ strandedRequests).calls.length = 1 ∧
      (heldJumps (Session.behind ⟨1, 2⟩ strandedRequests).loops).length = 1 ∧
      ((Session.start ⟨1, 2⟩).dropped strandedRequests).card = 2 ∧ Accounted ⟨1, 2⟩ strandedRequests) ∧
    ((Session.behind ⟨1, 2⟩ settledRequests).finish 7).isOk = true ∧ Accounted ⟨1, 2⟩ settledRequests := by
  refine ⟨⟨?_, ?_, ?_, ?_, accounted_requests _ _⟩, ?_, accounted_requests _ _⟩ <;> decide +kernel

end RegisterCompiler
