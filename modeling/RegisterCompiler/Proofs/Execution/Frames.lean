import RegisterCompiler.Proofs.Execution.HostCalls
import RegisterCompiler.Proofs.Execution.Operations

/-!
# Frames

A run of a procedure owns a part of the stack, its frame: what it pushes lies below its return address, and what lies from there on
it leaves alone. `Frame.Matches` says that the processor's state is that of a scope; what the code of an action does to the state,
its meaning does to the scope.
-/

namespace RegisterCompiler.Machine

open X64 (Reg)

/-- The part of the stack of one run of a procedure. -/
structure Frame where
  /-- The lowest position that may be written. -/
  low : Nat
  /-- The position of the return address. -/
  top : Nat
  /-- The number of words for which there is room below the return address. -/
  room : Nat
  /-- The memory when the run began. -/
  outer : Memory

/-- The stack reaches as far as a frame does. -/
structure Frame.Fits (env : Environment) (frame : Frame) : Prop where
  writable : env.Writable frame.low (frame.top + 8)
  space : frame.low + reserve + 8 * frame.room ≤ frame.top

/-- The position of the stack pointer in a frame with some words pushed. -/
def Frame.position (frame : Frame) (pushed : Nat) : Nat := frame.top - 8 * pushed

/-- A state holds the registers and the stack of a scope. -/
structure Frame.Matches (frame : Frame) (scope : Scope) (s : State) : Prop where
  registers : ∀ r : Register, s.get r.hardware = (scope.registers r).toUInt64
  pointer : s.get .rsp = UInt64.ofNat (frame.position scope.stack.length)
  stacked : s.memory.Stacked (frame.position scope.stack.length) (scope.stack.map Int64.toUInt64)
  pushed : scope.stack.length ≤ frame.room
  outer : Memory.AgreesFrom frame.top s.memory frame.outer

section

variable {env : Environment} {frame : Frame} {scope : Scope} {s t : State}

/-- A state that matches a frame has room on the stack. -/
theorem Frame.Matches.ready (h : frame.Matches scope s) (hfits : frame.Fits env) :
    env.Ready (frame.position scope.stack.length) s := by
  have hspace := hfits.space
  have hbound := hfits.writable.1
  have hpushed := h.pushed
  unfold Frame.position
  exact ⟨h.pointer, by omega, by omega, hfits.writable.mono (by omega) (by omega)⟩

/-- The value of an operand is the word that the code takes for it. -/
theorem Frame.Matches.value (h : frame.Matches scope s) (value : Value) :
    valueWord s value = (value.eval scope.registers).toUInt64 := by
  cases value with
  | register r => exact h.registers r
  | immediate n => rfl

/-- Below what is pushed there is another word of the frame. -/
theorem Frame.Fits.position_succ (hfits : frame.Fits env) {pushed : Nat} (h : pushed < frame.room) :
    frame.position pushed = frame.position (pushed + 1) + 8 ∧
      frame.low + reserve + 8 * (frame.room - pushed - 1) ≤ frame.position (pushed + 1) ∧
      frame.position (pushed + 1) + 8 ≤ frame.top := by
  have hspace := hfits.space
  unfold Frame.position
  omega

/-- Memory that agrees from the stack pointer on holds the same stack. -/
theorem Frame.Matches.of_memory (h : frame.Matches scope s) (hfits : frame.Fits env) {m : Memory}
    (hmemory : Memory.AgreesFrom (frame.position scope.stack.length) m s.memory) :
    m.Stacked (frame.position scope.stack.length) (scope.stack.map Int64.toUInt64) ∧
      Memory.AgreesFrom frame.top m frame.outer := by
  have hspace := hfits.space
  have hbound := hfits.writable.1
  have hpushed := h.pushed
  have htop : frame.position scope.stack.length + 8 * scope.stack.length = frame.top := by
    unfold Frame.position
    omega
  refine ⟨hmemory.stacked ?_ h.stacked, (hmemory.mono ?_).trans h.outer⟩
  · rw [List.length_map, htop]
    omega
  · omega

/-- Code that keeps everything keeps the scope. -/
theorem Frame.Matches.keeps (h : frame.Matches scope s) (hfits : frame.Fits env) (hkeeps : Keeps s t) : frame.Matches scope t := by
  have hmemory := hkeeps.memory
  rw [(h.ready hfits).toNat] at hmemory
  obtain ⟨hstacked, houter⟩ := h.of_memory hfits hmemory
  exact ⟨fun r => (hkeeps.registers _).trans (h.registers r), (hkeeps.registers _).trans h.pointer, hstacked, h.pushed, houter⟩

/-- Code that sets a register sets the register of the scope. -/
theorem Frame.Matches.assigns (h : frame.Matches scope s) (hfits : frame.Fits env) {r : Register} {v : Int64}
    (hassigns : Assigns r.hardware v.toUInt64 s t) : frame.Matches (scope.set r v) t := by
  have hmemory := hassigns.memory
  rw [(h.ready hfits).toNat] at hmemory
  obtain ⟨hstacked, houter⟩ := h.of_memory hfits hmemory
  refine ⟨fun q => ?_, (hassigns.others _ r.hardware_ne_rsp.symm).trans h.pointer, hstacked, h.pushed, houter⟩
  show _ = (Function.update scope.registers r v q).toUInt64
  by_cases hq : q = r
  · rw [hq, Function.update_self, hassigns.value]
  · rw [Function.update_of_ne hq, hassigns.others _ fun he => hq (Register.hardware_injective he), h.registers]

/-- A push of a register pushes it in the scope. -/
theorem Frame.Matches.push (h : frame.Matches scope s) (hfits : frame.Fits env) (hroom : scope.stack.length < frame.room)
    (r : Register) :
    ∃ t, env.Does (.push r.hardware) s t ∧
      frame.Matches { scope with stack := scope.registers r :: scope.stack } t := by
  have hbound := hfits.writable.1
  obtain ⟨q, hq⟩ : ∃ q, q = frame.position (scope.stack.length + 1) := ⟨_, rfl⟩
  obtain ⟨hnext, hlow, htop⟩ := hfits.position_succ hroom
  rw [← hq] at hnext hlow htop
  have hmemory : Memory.AgreesFrom (q + 8) (s.memory.setWord q (s.get r.hardware)) s.memory :=
    Memory.agreesFrom_setWord _ _ (by omega) (Nat.le_refl _)
  obtain ⟨hstacked, houter⟩ := h.of_memory hfits (hnext ▸ hmemory)
  refine ⟨_, does_push r.hardware (hnext ▸ h.pointer) (hfits.writable.mono (by omega) (by omega)), ?_⟩
  constructor
  · intro x
    rw [State.get_set_of_ne _ _ x.hardware_ne_rsp, State.get_withMemory, h.registers]
  · rw [State.get_set_self, hq, List.length_cons]
  · rw [List.length_cons, ← hq, State.memory_set, List.map_cons]
    refine ⟨?_, hnext ▸ hstacked⟩
    rw [← h.registers]
    exact Memory.word_setWord _ _ _
  · exact hroom
  · exact houter

/-- A pop into a register pops it in the scope. -/
theorem Frame.Matches.pop {w : Int64} {rest : List Int64} (h : frame.Matches scope s) (hfits : frame.Fits env)
    (hstack : scope.stack = w :: rest) (r : Register) :
    ∃ t, env.Does (.pop r.hardware) s t ∧ frame.Matches { scope.set r w with stack := rest } t := by
  obtain ⟨hregisters, hpointer, hstacked, hpushed, houter⟩ := h
  rw [hstack, List.length_cons] at hpointer hstacked hpushed
  obtain ⟨q, hq⟩ : ∃ q, q = frame.position (rest.length + 1) := ⟨_, rfl⟩
  obtain ⟨hnext, hlow, htop⟩ := hfits.position_succ hpushed
  rw [← hq] at hnext hlow htop
  rw [← hq] at hpointer hstacked
  refine ⟨_, does_pop r.hardware hpointer (hfits.writable.mono (by omega) (by omega)), ?_⟩
  constructor
  · intro x
    show _ = (Function.update scope.registers r w x).toUInt64
    by_cases hx : x = r
    · rw [hx, Function.update_self, State.get_set_self]
      exact hstacked.1
    · rw [Function.update_of_ne hx, State.get_set_of_ne _ _ fun he => hx (Register.hardware_injective he),
        State.get_set_of_ne _ _ x.hardware_ne_rsp, hregisters]
  · rw [State.get_set_of_ne _ _ r.hardware_ne_rsp.symm, State.get_set_self, hnext]
  · rw [State.memory_set, State.memory_set, hnext]
    exact hstacked.2
  · exact Nat.le_of_succ_le hpushed
  · exact houter

/-! ## Calls -/

/-- The frame of a procedure that is called with some words pushed. -/
def Frame.callee (frame : Frame) (pushed : Nat) (memory : Memory) : Frame :=
  ⟨frame.low, frame.position (pushed + 1), frame.room - pushed - 1, memory⟩

/-- A state behind the return from a run: the registers are as given, the return address is popped, and nothing from there on has
changed. -/
structure Frame.Returned (frame : Frame) (registers : Register → Int64) (s : State) : Prop where
  registers : ∀ r : Register, s.get r.hardware = (registers r).toUInt64
  pointer : s.get .rsp = UInt64.ofNat (frame.top + 8)
  outer : Memory.AgreesFrom frame.top s.memory frame.outer

/-- While a frame has room for a call, the frame of the callee fits. -/
theorem Frame.Fits.callee (hfits : frame.Fits env) {pushed : Nat} (h : pushed < frame.room) (memory : Memory) :
    (frame.callee pushed memory).Fits env := by
  obtain ⟨_, hlow, htop⟩ := hfits.position_succ h
  exact ⟨hfits.writable.mono (Nat.le_refl _) (by show frame.position (pushed + 1) + 8 ≤ _; omega), hlow⟩

/-- Behind the push of a return address the frame of the callee begins, with nothing pushed in it. -/
theorem Frame.Matches.enter (h : frame.Matches scope s) (hfits : frame.Fits env) (hroom : scope.stack.length < frame.room)
    (back : UInt64) :
    ∃ t, env.pushWord s back = .ok t ∧ (frame.callee scope.stack.length t.memory).Matches ⟨scope.registers, []⟩ t ∧
      t.memory.word (frame.position (scope.stack.length + 1)) = back ∧
      Memory.AgreesFrom (frame.position scope.stack.length) t.memory s.memory := by
  have hbound := hfits.writable.1
  obtain ⟨hnext, hlow, htop⟩ := hfits.position_succ hroom
  have hwritable : env.Writable (frame.position (scope.stack.length + 1)) (frame.position (scope.stack.length + 1) + 8) :=
    hfits.writable.mono (by omega) (by omega)
  refine ⟨_, Environment.pushWord_eq (hnext ▸ h.pointer) hwritable, ?_, ?_, ?_⟩
  · refine ⟨fun r => ?_, State.get_set_self _ _ _, trivial, Nat.zero_le _, .refl _ _⟩
    rw [State.get_set_of_ne _ _ r.hardware_ne_rsp, State.get_withMemory]
    exact h.registers r
  · rw [State.memory_set]
    exact Memory.word_setWord _ _ _
  · rw [State.memory_set, hnext]
    exact Memory.agreesFrom_setWord _ _ (by omega) (Nat.le_refl _)

/-- Behind the return from the callee the caller finds its stack as it was. -/
theorem Frame.Matches.resume (h : frame.Matches scope s) (hfits : frame.Fits env) (hroom : scope.stack.length < frame.room)
    (hmemory : Memory.AgreesFrom (frame.position scope.stack.length) t.memory s.memory) {registers : Register → Int64} {u : State}
    (hreturned : (frame.callee scope.stack.length t.memory).Returned registers u) :
    frame.Matches { scope with registers := registers } u := by
  obtain ⟨hnext, _, _⟩ := hfits.position_succ hroom
  have houter : Memory.AgreesFrom (frame.position (scope.stack.length + 1)) u.memory t.memory := hreturned.outer
  obtain ⟨hstacked, houter⟩ := h.of_memory hfits ((houter.mono (by omega)).trans hmemory)
  refine ⟨hreturned.registers, ?_, hstacked, h.pushed, houter⟩
  rw [hreturned.pointer]
  show UInt64.ofNat (frame.position (scope.stack.length + 1) + 8) = UInt64.ofNat (frame.position scope.stack.length)
  rw [hnext]

end

end RegisterCompiler.Machine
