import RegisterCompiler.Proofs.Execution.Placed
import RegisterCompiler.Proofs.Execution.Words

/-!
# What straight-line code leaves alone

An instruction that neither jumps nor calls nor sets the stack pointer goes on behind itself and writes, if anything, a word right
below the stack pointer (`Contained`). A sequence of such instructions does so at every step on its way
(`Environment.CodeAt.untouched`), whatever it computes and whether or not it comes to its end.
-/

namespace RegisterCompiler.Machine

open X64 (Instruction Reg Sequence)

namespace State

/-- A register that is set holds the word, and the others hold what they held. -/
theorem get_set (s : State) (r q : Reg) (w : UInt64) : (s.set r w).get q = if r = q then w else s.get q :=
  Registers.get_set s.registers r q w

/-- A register that is set holds the word. -/
@[simp] theorem get_set_self (s : State) (r : Reg) (w : UInt64) : (s.set r w).get r = w := by rw [get_set, if_pos rfl]

/-- Setting a register changes no other one. -/
theorem get_set_of_ne (s : State) {r q : Reg} (w : UInt64) (h : q ≠ r) : (s.set r w).get q = s.get q := by
  rw [get_set, if_neg h.symm]

/-- Setting a register does not change memory. -/
@[simp] theorem memory_set (s : State) (r : Reg) (w : UInt64) : (s.set r w).memory = s.memory := rfl

end State

/-- Other memory, the same registers. -/
theorem State.get_withMemory (s : State) (m : Memory) (r : Reg) : State.get { s with memory := m } r = s.get r := rfl

/-- Other flags, the same registers. -/
theorem State.get_withFlags (s : State) (f : Flags) (r : Reg) : State.get { s with flags := f } r = s.get r := rfl

/-! ## The bytes below the stack pointer -/

/-- An address is that of one of a number of bytes right below the stack pointer. -/
def State.Below (s : State) (depth : Nat) (address : UInt64) : Prop :=
  ∃ k, 0 < k ∧ k ≤ depth ∧ address = s.get .rsp - UInt64.ofNat k

/-- The stack pointer is kept, and so is memory but for a number of bytes right below it. -/
structure Untouched (depth : Nat) (s t : State) : Prop where
  pointer : t.get .rsp = s.get .rsp
  memory : ∀ a, ¬s.Below depth a → t.memory.read a = s.memory.read a

namespace Untouched

variable {depth : Nat} {s t u : State}

/-- A state is untouched from itself. -/
theorem refl (depth : Nat) (s : State) : Untouched depth s s := ⟨rfl, fun _ _ => rfl⟩

/-- Two runs that touch nothing outside a depth touch nothing outside it together. -/
theorem trans (h : Untouched depth s t) (h' : Untouched depth t u) : Untouched depth s u := by
  refine ⟨h'.pointer.trans h.pointer, ?_⟩
  intro a ha
  refine (h'.memory a ?_).trans (h.memory a ha)
  rintro ⟨k, hk, hdepth, rfl⟩
  exact ha ⟨k, hk, hdepth, by rw [h.pointer]⟩

/-- Where there are enough addresses below the stack pointer, memory from it on is kept. -/
theorem agreesFrom (h : Untouched depth s t) (hdepth : depth ≤ (s.get .rsp).toNat) :
    Memory.AgreesFrom (s.get .rsp).toNat t.memory s.memory := by
  intro q hq hlt
  refine h.memory _ ?_
  rintro ⟨k, hk, hle, he⟩
  have hlarge := (s.get .rsp).toNat_lt
  have he := congrArg UInt64.toNat he
  rw [UInt64.toNat_ofNat', UInt64.toNat_sub, UInt64.toNat_ofNat'] at he
  omega

end Untouched

/-! ## One instruction -/

/-- An instruction that goes on behind itself, keeps the stack pointer and writes no more than a number of bytes right below it. -/
def Contained (depth : Nat) : Instruction → Prop
  | .nop | .cqo | .divide _ => True
  | .move dest _ | .moveImmediate dest _ | .load dest _ | .address dest _ | .alu _ dest _ | .aluImmediate _ dest _
  | .multiply dest _ | .multiplyImmediate dest _ _ => dest ≠ .rsp
  | .store d _ => -(depth : Int) ≤ d.toInt ∧ d.toInt ≤ -8
  | .ret | .push _ | .pop _ | .callRegister _ | .call _ | .jump _ | .branch _ _ => False

/-- What is contained in a depth is contained in a larger one. -/
theorem Contained.mono {depth depth' : Nat} {i : Instruction} (h : Contained depth i) (hdepth : depth ≤ depth') :
    Contained depth' i := by
  cases i with
  | store d source => exact ⟨by have := h.1; omega, h.2⟩
  | _ => exact h

namespace Environment

variable {env : Environment} {depth : Nat} {s t : State}

/-- A store of bytes changes no register and no byte at another address. -/
theorem storeBytes_kept {address : UInt64} {bytes : List UInt8} (h : env.storeBytes s address bytes = .ok t) :
    t.registers = s.registers ∧
      ∀ a, (∀ k < bytes.length, a ≠ address + UInt64.ofNat k) → t.memory.read a = s.memory.read a := by
  induction bytes generalizing s address with
  | nil =>
    obtain rfl := Except.ok.inj h
    exact ⟨rfl, fun _ _ => rfl⟩
  | cons b rest ih =>
    rw [storeBytes, store] at h
    split at h
    · obtain ⟨hregisters, hmemory⟩ := ih h
      refine ⟨hregisters, ?_⟩
      intro a ha
      have hfirst : address ≠ a := by
        rintro rfl
        exact ha 0 (Nat.succ_pos _) (UInt64.add_zero address).symm
      have hrest : ∀ k < rest.length, a ≠ address + 1 + UInt64.ofNat k := by
        intro k hk
        have hnext := ha (k + 1) (Nat.succ_lt_succ hk)
        rwa [UInt64.ofNat_add, UInt64.add_comm (UInt64.ofNat k), ← UInt64.add_assoc] at hnext
      rw [hmemory a hrest, Memory.read_write, if_neg hfirst]
    · cases h

/-- A stored word lies right below the stack pointer if its displacement does. -/
theorem below_of_displacement {d : Int32} (hlow : -(depth : Int) ≤ d.toInt) (hhigh : d.toInt ≤ -8) {k : Nat} (hk : k < 8) :
    s.Below depth (s.get .rsp + wordOfInt32 d + UInt64.ofNat k) := by
  obtain ⟨n, hn⟩ : ∃ n : Nat, d.toInt = -(n + k : Nat) := ⟨(-d.toInt).toNat - k, by omega⟩
  have hsum : ((n + k : Nat) : Int) + d.toInt = (0 : Nat) := by omega
  have hword : wordOfInt32 d + UInt64.ofNat (n + k) = 0 := (UInt64.add_comm _ _).trans (ofNat_add_wordOfInt32 hsum)
  refine ⟨n, by omega, by omega, ?_⟩
  rw [UInt64.ofNat_add] at hword
  grind

/-- An instruction that is carried out goes on behind itself and leaves alone what it may not write. -/
theorem execute_contained {i : Instruction} (hi : Contained depth i) {next : UInt64} {transition : Transition}
    (h : env.execute s next i = .ok transition) :
    ∃ t, transition = .next { t with pointer := next } ∧ Untouched depth s t := by
  have hset (r : Reg) (w : UInt64) (hr : r ≠ .rsp) : Untouched depth s (s.set r w) :=
    ⟨State.get_set_of_ne _ _ hr.symm, fun _ _ => rfl⟩
  have hoperate (op : X64.Alu) (r : Reg) (w : UInt64) (hr : r ≠ .rsp) : Untouched depth s (execute.operate s op r w) := by
    unfold execute.operate
    split
    · exact ⟨rfl, fun _ _ => rfl⟩
    · exact ⟨State.get_set_of_ne _ _ hr.symm, fun _ _ => rfl⟩
  cases i with
  | nop =>
    obtain rfl := Except.ok.inj h
    exact ⟨s, rfl, .refl _ _⟩
  | cqo =>
    obtain rfl := Except.ok.inj h
    exact ⟨_, rfl, hset _ _ (by decide)⟩
  | move dest source =>
    obtain rfl := Except.ok.inj h
    exact ⟨_, rfl, hset _ _ hi⟩
  | moveImmediate dest imm =>
    obtain rfl := Except.ok.inj h
    exact ⟨_, rfl, hset _ _ hi⟩
  | address dest d =>
    obtain rfl := Except.ok.inj h
    exact ⟨_, rfl, hset _ _ hi⟩
  | alu op dest source =>
    obtain rfl := Except.ok.inj h
    exact ⟨_, rfl, hoperate op dest _ hi⟩
  | aluImmediate op dest imm =>
    obtain rfl := Except.ok.inj h
    exact ⟨_, rfl, hoperate op dest _ hi⟩
  | multiply dest source =>
    obtain rfl := Except.ok.inj h
    exact ⟨_, rfl, ⟨State.get_set_of_ne _ _ hi.symm, fun _ _ => rfl⟩⟩
  | multiplyImmediate dest source imm =>
    obtain rfl := Except.ok.inj h
    exact ⟨_, rfl, ⟨State.get_set_of_ne _ _ hi.symm, fun _ _ => rfl⟩⟩
  | divide divisor =>
    simp only [execute] at h
    split at h
    · cases h
    · rename_i quotient remainder _
      obtain rfl := Except.ok.inj h
      refine ⟨{ (s.set .rax quotient).set .rdx remainder with flags := env.undefinedFlags }, rfl, ⟨?_, fun _ _ => rfl⟩⟩
      rw [State.get_withFlags, State.get_set_of_ne _ _ (by decide), State.get_set_of_ne _ _ (by decide)]
  | load dest d =>
    simp only [execute, bind, Except.bind] at h
    split at h
    · cases h
    · obtain rfl := Except.ok.inj h
      exact ⟨_, rfl, hset _ _ hi⟩
  | store d source =>
    simp only [execute, bind, Except.bind] at h
    split at h
    · cases h
    · rename_i t ht
      obtain rfl := Except.ok.inj h
      obtain ⟨hregisters, hmemory⟩ := storeBytes_kept ht
      refine ⟨t, rfl, ⟨congrArg (Registers.get · .rsp) hregisters, fun a ha => hmemory a ?_⟩⟩
      rintro k hk rfl
      exact ha (below_of_displacement hi.1 hi.2 hk)
  -- the others call, jump or use the stack, and are not contained
  | _ => exact hi.elim

/-! ## On the way through a sequence -/

/-- At every step through a sequence of such instructions nothing has been printed, and nothing written but right below the stack
pointer. -/
theorem CodeAt.untouched {sequence : Sequence} {o : Nat} (hcode : env.CodeAt o (plainPieces sequence))
    (hcontained : ∀ i ∈ sequence, Contained depth i) {k : Nat} {es : List Event} {u : State} (h : Path env k (s.goto env o) es u)
    (hk : k ≤ sequence.length) : es = [] ∧ Untouched depth s u := by
  induction sequence generalizing o s k with
  | nil =>
    obtain rfl := Nat.le_zero.1 hk
    cases h
    exact ⟨rfl, rfl, fun _ _ => rfl⟩
  | cons i rest ih =>
    obtain ⟨hi, hrest⟩ := List.forall_mem_cons.1 hcontained
    obtain ⟨hpiece, hcode⟩ := codeAt_cons.1 hcode
    have hstep : ∀ transition, env.step (s.goto env o) = .ok transition → ∃ t : State,
        transition = .next (t.goto env (o + i.size)) ∧ Untouched depth s t := by
      intro transition htransition
      rw [hpiece.2.step s] at htransition
      obtain ⟨t, htransition, ht⟩ := execute_contained hi htransition
      exact ⟨t, htransition, ⟨ht.pointer, ht.memory⟩⟩
    cases h with
    | refl => exact ⟨rfl, rfl, fun _ _ => rfl⟩
    | next hnext hpath =>
      obtain ⟨t, ht, huntouched⟩ := hstep _ hnext
      obtain rfl := Transition.next.inj ht
      obtain ⟨rfl, hu⟩ := ih hcode hrest hpath (Nat.le_of_succ_le_succ hk)
      exact ⟨rfl, huntouched.trans hu⟩
    | print hprint hpath =>
      obtain ⟨t, ht, -⟩ := hstep _ hprint
      cases ht

end Environment

end RegisterCompiler.Machine
