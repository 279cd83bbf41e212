import RegisterCompiler.Proofs.Backpatching
import RegisterCompiler.Proofs.Execution.Loading
import RegisterCompiler.Proofs.Execution.Rounds

/-!
# Compiled programs do what they mean

A program that compiles behaves on the processor as its meaning says: it prints the same, comes to its end exactly where the
meaning does, with the registers and the stack pointer as they were, and faults exactly where the meaning divides without a result.
This holds wherever the code is loaded, whatever the registers hold, and for every host that keeps to the calling convention, up to
where the program misuses its stack or needs more of it than there is.
-/

namespace RegisterCompiler

namespace Machine

open X64 (Reg)

/-- The numbers that the registers of a program hold. -/
def Registers.values (rs : Registers) : Register → Int64 := fun r => (rs.get r.hardware).toInt64

section

variable {env : Environment} {c : Compiled} {table : ProcedureTable} {intrinsics : Intrinsics} {registers : Registers}
  {stackPointer : UInt64} {room : Nat}

variable {frame : Frame} {s : State} {values : Register → Int64} {o : Nat}

/-- The saved registers lie in the frame of the code that a host enters as if a procedure had pushed them. -/
theorem Frame.Matches.pushAll (h : frame.Matches ⟨values, []⟩ s) (hfits : frame.Fits env) (hroom : Reg.saved.length ≤ frame.room) :
    ∃ t, Performs env X64.pushAll s t ∧ frame.Matches ⟨values, Reg.saved.reverse.map fun r => (s.get r).toInt64⟩ t := by
  have hspace := hfits.space
  have hbound := hfits.writable.1
  have htop : frame.position Reg.saved.length + 8 * Reg.saved.length = frame.top := by
    unfold Frame.position
    omega
  have hpointer : s.get .rsp = UInt64.ofNat (frame.position Reg.saved.length + 8 * Reg.saved.length) := by
    rw [htop]
    exact h.pointer
  have hwritable := hfits.writable.mono (show frame.low ≤ frame.position Reg.saved.length by unfold Frame.position; omega)
    (show frame.position Reg.saved.length + 8 * Reg.saved.length ≤ frame.top + 8 by omega)
  obtain ⟨t, ht, hrsp, hget, hstacked, hmemory⟩ := performs_pushes Reg.saved (by decide) hpointer hwritable
  rw [htop] at hmemory
  refine ⟨t, ht, fun r => (hget _ r.hardware_ne_rsp).trans (h.registers r), ?_, ?_, ?_, hmemory.trans h.outer⟩
  · rw [hrsp, List.length_map, List.length_reverse]
  · rw [List.length_map, List.length_reverse, List.map_map]
    exact hstacked
  · rw [List.length_map, List.length_reverse]
    exact hroom

/-- The saved registers are restored, up to the return address of the host. -/
theorem Frame.Matches.popAll {ws : List Int64} (h : frame.Matches ⟨values, ws⟩ s) (hfits : frame.Fits env)
    (hlength : ws.length = Reg.saved.length) :
    ∃ t, Performs env X64.popAll s t ∧ Reg.saved.reverse.map t.get = ws.map Int64.toUInt64 ∧
      t.get .rsp = UInt64.ofNat frame.top ∧ Memory.AgreesFrom frame.top t.memory frame.outer := by
  have hspace := hfits.space
  have hbound := hfits.writable.1
  have hpushed := h.pushed
  obtain ⟨_, hpointer, hstacked, _, houter⟩ := h
  simp only [hlength] at hpointer hstacked hpushed
  have htop : frame.position Reg.saved.length + 8 * Reg.saved.reverse.length = frame.top := by
    rw [List.length_reverse]
    unfold Frame.position
    omega
  obtain ⟨t, ht, hrsp, hws, _, hmemory⟩ := performs_pops Reg.saved.reverse (by decide) (by decide)
    (by rw [List.length_map, hlength, List.length_reverse]) hpointer hstacked
    (hfits.writable.mono (by unfold Frame.position; omega) (by omega))
  rw [htop] at hrsp
  exact ⟨t, ht, hws, hrsp, hmemory ▸ houter⟩

/-- A return to the exit ends the run. -/
theorem step_exit (hfits : frame.Fits env) (hcode : env.InstructionAt o .ret) (hrsp : s.get .rsp = UInt64.ofNat frame.top)
    (hmemory : Memory.AgreesFrom frame.top s.memory frame.outer) (hexit : frame.outer.word frame.top = env.exit) :
    ∃ t, env.step (s.goto env o) = .ok (.exit t) ∧ (∀ r, r ≠ .rsp → t.get r = s.get r) ∧
      t.get .rsp = UInt64.ofNat (frame.top + 8) := by
  have hspace := hfits.space
  have hbound := hfits.writable.1
  have hpop := Environment.popWord_eq (s := s.goto env o) hrsp (hfits.writable.mono (by omega) (Nat.le_refl _))
  have hword : (s.goto env o).memory.word frame.top = env.exit := by
    rw [← hexit]
    exact hmemory.word (Nat.le_refl _) hbound
  rw [hword] at hpop
  refine ⟨_, ?_, fun r hr => State.get_set_of_ne (s.goto env o) _ hr, State.get_set_self (s.goto env o) _ _⟩
  rw [hcode.step s, Environment.execute, hpop]
  show Except.ok (if env.exit = env.exit then _ else _) = _
  rw [if_pos rfl]

/-- The last step of a program's run, which ends it with the registers and the stack pointer as given. -/
def Ends (env : Environment) (registers : Register → UInt64) (stackPointer : UInt64) (_ : Departure) (_ : Scope) (t : State) :
    Prop :=
  ∃ u, env.step t = .ok (.exit u) ∧ (∀ r : Register, u.get r.hardware = registers r) ∧ u.get .rsp = stackPointer

/-- The code that a host enters follows the meaning of the program. -/
theorem follows_trampoline (hproper : env.Proper) (hfaults : table.faults = [])
    (hcode : env.CodeAt 0 (table.pieces env.host.intrinsics)) (hfits : frame.Fits env) (h : frame.Matches ⟨values, []⟩ s)
    (hroom : frame.room = room + Reg.saved.length + 1) (hexit : frame.outer.word frame.top = env.exit) (n : Nat) :
    Follows env 0 (n + 1) (s.goto env (table.entry env.host.intrinsics)) (table.meaning n room values)
      (Ends env (fun r => s.get r.hardware) (UInt64.ofNat (frame.top + 8))) := by
  obtain ⟨_, htrampoline⟩ := Environment.codeAt_append.1 hcode
  rw [piecesSize_proceduresPieces, Nat.zero_add] at htrampoline
  obtain ⟨hpushCode, hrest⟩ := Environment.codeAt_append.1 htrampoline
  rw [piecesSize_plainPieces] at hrest
  obtain ⟨hcallCode, hrest⟩ := Environment.codeAt_cons.1 hrest
  rw [plainPieces, List.map_append] at hrest
  obtain ⟨hpopCode, hretCode⟩ := Environment.codeAt_append.1 hrest
  have hret := (Environment.codeAt_cons.1 hretCode).1.2
  obtain ⟨t, hpush, ht⟩ := h.pushAll hfits (by omega)
  have hlength : (Reg.saved.reverse.map fun r => (s.get r).toInt64).length = Reg.saved.length := by
    rw [List.length_map, List.length_reverse]
  have hback : table.entry env.host.intrinsics + sequenceSize X64.pushAll + 5 < env.image.bytes.size :=
    (Environment.codeAt_cons.1 hpopCode).1.2.lt
  have hbase := hproper.base
  have hrun := follows_run (laterFollows_later hproper hfaults hcode (n + 1)) hfits ht hcallCode (by simp only [hlength]; omega)
    hback (by omega)
  have hmeaning : (table.later (n + 1)).procedure Compile.mainName
      (frame.room - (Reg.saved.reverse.map fun r => (s.get r).toInt64).length - 1) values = table.meaning n room values := by
    rw [hlength, show frame.room - Reg.saved.length - 1 = room by omega]
    rfl
  rw [hmeaning] at hrun
  refine (hpush.path hpushCode).follows_silent ((hrun.extend fun way inner u hleft => ?_).mono (Nat.zero_le _) (by omega))
  obtain ⟨v, rfl, hv⟩ := hleft
  obtain ⟨w, hpop, hws, hrsp, hmemory⟩ := hv.popAll hfits hlength
  obtain ⟨e, hstep, hget, hersp⟩ := step_exit hfits hret hrsp hmemory hexit
  refine ⟨_, _, hpop.path hpopCode, e, hstep, fun r => ?_, hersp⟩
  rw [List.map_map, List.map_inj_left] at hws
  rw [hget _ r.hardware_ne_rsp]
  exact hws _ (List.mem_reverse.2 ((Reg.mem_saved_iff _).2 r.hardware_ne_rsp))

/-- A run begins at the entry with the registers as given and with the exit as the word on top of the stack. -/
theorem Environment.run_eq {top : Nat} (h : env.Writable top (top + 8)) (registers : Registers) (entry : Nat) :
    ∃ s : State, (∀ n, env.run n registers (UInt64.ofNat (top + 8)) entry = env.runFrom n #[] (s.goto env entry)) ∧
      (∀ r : Register, s.get r.hardware = registers.get r.hardware) ∧ s.get .rsp = UInt64.ofNat top ∧
      s.memory.word top = env.exit := by
  obtain ⟨s, hs⟩ : ∃ s : State, s = ⟨registers.set .rsp (UInt64.ofNat (top + 8)), env.undefinedFlags, Memory.zero,
      env.base + UInt64.ofNat entry⟩ := ⟨_, rfl⟩
  have hrsp : s.get .rsp = UInt64.ofNat (top + 8) := by
    rw [hs]
    exact (Registers.get_set _ _ _ _).trans (if_pos rfl)
  have hget (r : Register) : s.get r.hardware = registers.get r.hardware := by
    rw [hs]
    exact (Registers.get_set _ _ _ _).trans (if_neg r.hardware_ne_rsp.symm)
  refine ⟨State.set { s with memory := s.memory.setWord top env.exit } .rsp (UInt64.ofNat top), fun n => ?_,
    fun r => ?_, State.get_set_self _ _ _, Memory.word_setWord s.memory _ env.exit⟩
  · unfold Environment.run
    rw [← hs]
    simp only [Environment.pushWord_eq hrsp h]
    rw [hs]
    rfl
  · rw [State.get_set_of_ne _ _ r.hardware_ne_rsp, State.get_withMemory]
    exact hget r

/-- A host enters code above a frame in which nothing is pushed. -/
theorem Environment.Carries.enter (h : env.Carries c stackPointer room) (registers : Registers) (entry : Nat) :
    ∃ (frame : Frame) (s : State), (∀ n, env.run n registers stackPointer entry = env.runFrom n #[] (s.goto env entry)) ∧
      frame.Fits env ∧ frame.Matches ⟨registers.values, []⟩ s ∧ frame.room = room + Reg.saved.length + 1 ∧
      frame.outer.word frame.top = env.exit ∧ stackPointer = UInt64.ofNat (frame.top + 8) ∧
      ∀ r : Register, s.get r.hardware = registers.get r.hardware := by
  have henough := h.enough
  have hwritable := h.writable
  obtain ⟨top, htop⟩ := Nat.exists_eq_add_of_le' (show 8 ≤ stackPointer.toNat by unfold entryReserve at henough; omega)
  have hpointer : stackPointer = UInt64.ofNat (top + 8) := by rw [← htop, UInt64.ofNat_toNat]
  rw [htop] at henough hwritable
  have htopWritable := hwritable.mono (show _ ≤ top by unfold entryReserve; omega) (Nat.le_refl _)
  obtain ⟨s, hrun, hget, hrsp, hword⟩ := Environment.run_eq htopWritable registers entry
  rw [← hpointer] at hrun
  refine ⟨⟨top + 8 - (entryReserve + 8 * room), top, room + Reg.saved.length + 1, s.memory⟩, s, hrun, ⟨hwritable, ?_⟩,
    ⟨hget, hrsp, trivial, Nat.zero_le _, Memory.AgreesFrom.refl _ _⟩, rfl, hword, hpointer, hget⟩
  unfold entryReserve at henough ⊢
  show top + 8 - _ + reserve + 8 * (room + Reg.saved.length + 1) ≤ top
  omega

/-- An environment for a program has its code in place, with the trampoline at its entry. -/
theorem Environment.Carries.codeAt (h : env.Carries c stackPointer room) (htwo : table.twoPass intrinsics = some c) :
    env.CodeAt 0 (table.pieces env.host.intrinsics) ∧ c.entry = table.entry env.host.intrinsics := by
  have hbase := h.proper.base
  have himage := h.image
  have hintrinsics := h.intrinsics
  obtain ⟨hland, rfl⟩ := ProcedureTable.eq_of_twoPass htwo
  rw [hintrinsics]
  refine ⟨Environment.codeAt_of_drop (by omega) hland ?_, rfl⟩
  rw [himage]
  rfl

end

/-! ## Runs and meanings -/

/-- A run is meant: it is on its way and has printed a part of what the meaning prints, or it comes to its end, or to a divide
fault, as the meaning does and after the same events. -/
def Run.Meant (run : Run) (meaning : Nat → Outcome) (kept : State → Prop) : Prop :=
  match run.ending with
  | .finished u => kept u ∧ ∃ n way scope, meaning n = ⟨run.events, .left way scope⟩
  | .fault f => f = .divide ∧ ∃ n, meaning n = ⟨run.events, .divideFault⟩
  | .unfinished => ∃ n, run.events <+: (meaning n).events

/-- The runs of a program, by the number of steps, do what its meaning does, by the number of rounds and runs. -/
structure Preserves (meaning : Nat → Outcome) (run : Nat → Run) (kept : State → Prop) : Prop where
  /-- What is meant to be printed is printed. -/
  printed : ∀ n, ∃ k, (meaning n).events <+: (run k).events
  /-- Where the meaning comes to its end, a run does, after the same events. -/
  finished : ∀ n es way scope, meaning n = ⟨es, .left way scope⟩ → ∃ k u, run k = ⟨es, .finished u⟩
  /-- Where the meaning divides without a result, a run faults, after the same events. -/
  divided : ∀ n es, meaning n = ⟨es, .divideFault⟩ → ∃ k, run k = ⟨es, .fault .divide⟩
  /-- Every run is meant, as long as the meaning does not misuse the stack. -/
  meant : ∀ k, (run k).Meant meaning kept ∨ ∃ n, (meaning n).stop = .stackFault ∧ (meaning n).events <+: (run k).events

section

variable {meaning : Nat → Outcome} {run : Nat → Run} {kept : State → Prop}

/-- Unless the stack is misused, the runs of a program come to their end exactly where its meaning does. -/
theorem Preserves.finished_iff (h : Preserves meaning run kept) (hstack : ∀ n, (meaning n).stop ≠ .stackFault)
    (es : List Event) : (∃ k u, run k = ⟨es, .finished u⟩) ↔ ∃ n way scope, meaning n = ⟨es, .left way scope⟩ := by
  constructor
  · rintro ⟨k, u, hk⟩
    rcases h.meant k with hmeant | ⟨n, hfault, _⟩
    · rw [hk] at hmeant
      exact hmeant.2
    · exact absurd hfault (hstack n)
  · rintro ⟨n, way, scope, hn⟩
    exact h.finished n es way scope hn

/-- Unless the stack is misused, the runs of a program fault exactly where its meaning divides without a result. -/
theorem Preserves.fault_iff (h : Preserves meaning run kept) (hstack : ∀ n, (meaning n).stop ≠ .stackFault) (es : List Event)
    (f : Fault) : (∃ k, run k = ⟨es, .fault f⟩) ↔ f = .divide ∧ ∃ n, meaning n = ⟨es, .divideFault⟩ := by
  constructor
  · rintro ⟨k, hk⟩
    rcases h.meant k with hmeant | ⟨n, hfault, _⟩
    · rw [hk] at hmeant
      exact hmeant
    · exact absurd hfault (hstack n)
  · rintro ⟨rfl, n, hn⟩
    exact h.divided n es hn

end

section

variable {env : Environment} {s : State} {meaning : Nat → Outcome} {kept : State → Prop} {left : Departure → Scope → State → Prop}
  {n k : Nat}

/-- A run that is on its way along a path is meant. -/
theorem Path.meant {m : Nat} {t : State} {es : List Event} (h : Path env m s es t) (hn : (meaning n).events = es) (hk : k ≤ m) :
    (env.runFrom k #[] s).Meant meaning kept := by
  obtain ⟨fs, hfs, hopen⟩ := h.runFrom_of_le hk #[]
  rw [hopen]
  exact ⟨n, hn ▸ hfs⟩

/-- A run that takes no more steps than are due is meant, or has come to a misuse of the stack. -/
theorem Follows.meant {due : Nat} (h : Follows env 0 due s (meaning n) left)
    (hleft : ∀ way scope t, left way scope t → ∃ u, env.step t = .ok (.exit u) ∧ kept u) (hk : k ≤ due) :
    (env.runFrom k #[] s).Meant meaning kept ∨
      (meaning n).stop = .stackFault ∧ (meaning n).events <+: (env.runFrom k #[] s).events := by
  obtain ⟨⟨events, stop⟩, hn⟩ : ∃ o, meaning n = o := ⟨_, rfl⟩
  have hevents : (meaning n).events = events := congrArg Outcome.events hn
  rw [hn] at h ⊢
  cases stop with
  | left way scope =>
    obtain ⟨m, t, hpath, _, hend⟩ := h
    obtain ⟨u, hstep, hu⟩ := hleft way scope t hend
    by_cases hm : k ≤ m
    · exact .inl (hpath.meant hevents hm)
    · rw [hpath.runFrom_exit hstep (Nat.lt_of_not_le hm)]
      exact .inl ⟨hu, n, way, scope, hn⟩
  | divideFault =>
    obtain ⟨m, t, hpath, hstep⟩ := h
    by_cases hm : k ≤ m
    · exact .inl (hpath.meant hevents hm)
    · rw [hpath.runFrom_fault hstep (Nat.lt_of_not_le hm)]
      exact .inl ⟨rfl, n, hn⟩
  | stackFault =>
    obtain ⟨m, t, hpath⟩ := h
    by_cases hm : k ≤ m
    · exact .inl (hpath.meant hevents hm)
    · exact .inr ⟨rfl, hpath.prefix_runFrom (Nat.le_of_not_le hm)⟩
  | unfinished =>
    obtain ⟨m, t, hdue, hpath⟩ := h
    exact .inl (hpath.meant hevents (by omega))

/-- Runs that follow every meaning do what it does. -/
theorem preserves_of_follows (h : ∀ n, Follows env 0 (n + 1) s (meaning n) left)
    (hleft : ∀ way scope t, left way scope t → ∃ u, env.step t = .ok (.exit u) ∧ kept u) :
    Preserves meaning (fun k => env.runFrom k #[] s) kept := by
  refine ⟨fun n => ?_, fun n es way scope hn => ?_, fun n es hn => ?_, fun k => ?_⟩
  · obtain ⟨m, t, hpath⟩ := (h n).exists_path
    exact ⟨m, hpath.prefix_runFrom (Nat.le_refl m)⟩
  · have hfollows := h n
    rw [hn] at hfollows
    obtain ⟨m, t, hpath, _, hend⟩ := hfollows
    obtain ⟨u, hstep, _⟩ := hleft way scope t hend
    exact ⟨m + 1, u, hpath.runFrom_exit hstep (Nat.lt_succ_self m) #[]⟩
  · have hfollows := h n
    rw [hn] at hfollows
    obtain ⟨m, t, hpath, hstep⟩ := hfollows
    exact ⟨m + 1, hpath.runFrom_fault hstep (Nat.lt_succ_self m) #[]⟩
  · exact ((h k).meant hleft (Nat.le_succ k)).imp id fun hfault => ⟨k, hfault⟩

end

end Machine

open Machine

/-- What is meant is done: where the compiler returns a program, its runs in an environment for it print the same as its meaning, end
exactly where the meaning does, with the registers and the stack pointer as they were, and fault exactly where a division of the
meaning has no result. Only where a procedure takes from the stack what it has not pushed, leaves something on it or finds no room
on it, a run may go on in any way. -/
theorem ProcedureTable.preserves_of_compile {table : ProcedureTable} {intrinsics : Intrinsics} {c : Compiled}
    (h : table.compile intrinsics = .ok c) {env : Environment} {stackPointer : UInt64} {room : Nat}
    (hcarries : env.Carries c stackPointer room) (registers : Registers) :
    Preserves (fun n => table.meaning n room registers.values) (fun k => env.run k registers stackPointer c.entry)
      fun u => (∀ r : Register, u.get r.hardware = registers.get r.hardware) ∧ u.get .rsp = stackPointer := by
  obtain ⟨hfaults, htwo⟩ := compile_cases h
  obtain ⟨hcode, hentry⟩ := hcarries.codeAt htwo
  obtain ⟨frame, s, hrun, hfits, hmatches, hroom, hexit, hpointer, hget⟩ := hcarries.enter registers c.entry
  have hfollows := follows_trampoline hcarries.proper hfaults hcode hfits hmatches hroom hexit
  rw [funext hrun, hentry]
  refine preserves_of_follows hfollows fun _ _ t hends => ?_
  obtain ⟨u, hstep, hkept, hrsp⟩ := hends
  exact ⟨u, hstep, fun r => (hkept r).trans (hget r), hrsp.trans hpointer.symm⟩

/-- Running the code of `countdown` preserves its meaning. -/
theorem preserves_of_compile_countdown : ∃ c, countdown.compile ⟨1, 2⟩ = .ok c ∧
    Preserves (fun n => countdown.meaning n 8 Registers.zero.values)
      (fun k => (standardEnvironment c.code.bytes c.intrinsics).run k Registers.zero standardStackPointer c.entry)
      fun u => (∀ r : Register, u.get r.hardware = Registers.zero.get r.hardware) ∧ u.get .rsp = standardStackPointer := by
  cases h : countdown.compile ⟨1, 2⟩ with
  | ok c =>
    obtain ⟨_, hc⟩ := ProcedureTable.eq_of_twoPass (ProcedureTable.compile_cases h).2
    have hlength : c.code.bytes.length = piecesSize (countdown.pieces ⟨1, 2⟩) := by
      rw [hc]
      exact length_bytesOf 0 _
    have hsize : piecesSize (countdown.pieces ⟨1, 2⟩) ≤ codeLimit := by decide +kernel
    have hcarries := carries_standardEnvironment (hlength.trans_le hsize) (by rw [hc]; decide)
      (show entryReserve + 8 * 8 ≤ standardSpace by decide)
    exact ⟨c, rfl, ProcedureTable.preserves_of_compile h hcarries Registers.zero⟩
  | error e => exact absurd isOk_compile_countdown (by rw [h]; exact Bool.false_ne_true)

example : (countdown.meaning 6 8 Registers.zero.values).events = List.replicate 3 (.text (utf8Bytes "hi")) := by decide +kernel

end RegisterCompiler
