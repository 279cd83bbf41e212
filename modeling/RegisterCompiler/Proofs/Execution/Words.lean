import Mathlib
import RegisterCompiler.Machine.Step
import RegisterCompiler.Proofs.Word

/-!
# Words in memory

Positions in memory are natural numbers, and their addresses these numbers modulo 2^64. `Memory.word` reads the eight bytes from a
position on, `Memory.setWord` writes them; where the stack reaches (`Environment.Mapped`), the processor's accesses to words are
these two. Most of the time positions lie below 2^64 (`Environment.Writable`).
-/

namespace RegisterCompiler.Machine

open X64 (Reg)

namespace Memory

/-- The word from a position on. -/
def word (m : Memory) (p : Nat) : UInt64 :=
  Environment.wordOfBytes ((List.range' p 8).map fun q => m.read (UInt64.ofNat q))

/-- Writes bytes from a position on. -/
def writeBytes (m : Memory) (p : Nat) : List UInt8 → Memory
  | [] => m
  | b :: rest => (m.write (UInt64.ofNat p) b).writeBytes (p + 1) rest

/-- Writes a word from a position on. -/
def setWord (m : Memory) (p : Nat) (w : UInt64) : Memory := m.writeBytes p (X64.longBytes w)

/-- Words lie one above another. -/
def Stacked (m : Memory) (p : Nat) : List UInt64 → Prop
  | [] => True
  | w :: ws => m.word p = w ∧ m.Stacked (p + 8) ws

/-- Memory is as other memory from a position on. -/
def AgreesFrom (p : Nat) (m other : Memory) : Prop :=
  ∀ q, p ≤ q → q < 2 ^ 64 → m.read (UInt64.ofNat q) = other.read (UInt64.ofNat q)

/-- Memory agrees with itself. -/
theorem AgreesFrom.refl (p : Nat) (m : Memory) : AgreesFrom p m m := fun _ _ _ => rfl

/-- Agreement is passed on. -/
theorem AgreesFrom.trans {p : Nat} {m m' m'' : Memory} (h : AgreesFrom p m m') (h' : AgreesFrom p m' m'') :
    AgreesFrom p m m'' :=
  fun q hp hq => (h q hp hq).trans (h' q hp hq)

/-- Memory that agrees from a position on agrees from every later one. -/
theorem AgreesFrom.mono {p p' : Nat} {m m' : Memory} (h : AgreesFrom p m m') (hp : p ≤ p') : AgreesFrom p' m m' :=
  fun q hp' hq => h q (hp.trans hp') hq

/-- Positions less than 2^64 apart have different addresses. -/
theorem ofNat_inj_near {p q : Nat} (hp : p < q + 2 ^ 64) (hq : q < p + 2 ^ 64) (h : UInt64.ofNat p = UInt64.ofNat q) :
    p = q := by
  have h := congrArg UInt64.toNat h
  rw [UInt64.toNat_ofNat', UInt64.toNat_ofNat'] at h
  omega

/-- Bytes are written at no other address. -/
theorem read_writeBytes (m : Memory) {p : Nat} {bytes : List UInt8} {address : UInt64}
    (hout : ∀ r, p ≤ r → r < p + bytes.length → UInt64.ofNat r ≠ address) :
    (m.writeBytes p bytes).read address = m.read address := by
  induction bytes generalizing m p with
  | nil => rfl
  | cons b rest ih =>
    rw [List.length_cons] at hout
    rw [writeBytes, ih _ fun r hp hr => hout r (by omega) (by omega), read_write,
      if_neg (hout p (Nat.le_refl p) (by omega))]

/-- Bytes that are written are read, if there are no more than addresses. -/
theorem map_read_writeBytes (m : Memory) {p : Nat} (bytes : List UInt8) (hlength : bytes.length ≤ 2 ^ 64) :
    ((List.range' p bytes.length).map fun q => (m.writeBytes p bytes).read (UInt64.ofNat q)) = bytes := by
  induction bytes generalizing m p with
  | nil => rfl
  | cons b rest ih =>
    rw [List.length_cons] at hlength
    have hfirst : ((m.write (UInt64.ofNat p) b).writeBytes (p + 1) rest).read (UInt64.ofNat p) = b := by
      rw [read_writeBytes _ fun r _ _ he => absurd (ofNat_inj_near (by omega) (by omega) he) (by omega), read_write,
        if_pos rfl]
    rw [List.length_cons, List.range'_succ, List.map_cons, writeBytes, ih _ (by omega), hfirst]

/-- The bytes of a word make the word. -/
theorem wordOfBytes_longBytes (w : UInt64) : Environment.wordOfBytes (X64.longBytes w) = w := by
  refine UInt64.toBitVec_inj.1 (BitVec.eq_of_getLsbD_eq fun i hi => ?_)
  simp only [Environment.wordOfBytes, X64.longBytes, List.foldr_cons, List.foldr_nil, UInt64.toBitVec_or,
    UInt64.toBitVec_shiftLeft, UInt64.toBitVec_shiftRight, UInt8.toBitVec_toUInt64, UInt64.toBitVec_toUInt8,
    BitVec.getLsbD_or, BitVec.getLsbD_shiftLeft, BitVec.getLsbD_setWidth, BitVec.getLsbD_ushiftRight,
    BitVec.shiftLeft_eq', BitVec.ushiftRight_eq', byteShifts]
  grind

/-- A word that is written is read back. -/
theorem word_setWord (m : Memory) (p : Nat) (w : UInt64) : (m.setWord p w).word p = w := by
  have h := m.map_read_writeBytes (p := p) (X64.longBytes w) (show 8 ≤ 2 ^ 64 by decide)
  unfold word setWord
  rw [show (8 : Nat) = (X64.longBytes w).length from rfl, h, wordOfBytes_longBytes]

/-- A word is written nowhere else. -/
theorem read_setWord (m : Memory) {p q : Nat} (w : UInt64) (hbelow : p + 8 ≤ q + 2 ^ 64) (habove : q < p + 2 ^ 64)
    (hout : q < p ∨ p + 8 ≤ q) : (m.setWord p w).read (UInt64.ofNat q) = m.read (UInt64.ofNat q) :=
  m.read_writeBytes fun r hp hr he => by
    have hr : r < p + 8 := hr
    have := ofNat_inj_near (by omega) (by omega) he
    omega

/-- A word depends on its eight bytes only. -/
theorem word_congr {m m' : Memory} {p : Nat}
    (h : ∀ q, p ≤ q → q < p + 8 → m.read (UInt64.ofNat q) = m'.read (UInt64.ofNat q)) : m.word p = m'.word p := by
  unfold word
  congr 1
  refine List.map_congr_left fun q hq => ?_
  rw [List.mem_range'_1] at hq
  exact h q hq.1 hq.2

/-- Writing a word changes no word beside it. -/
theorem word_setWord_of_ne (m : Memory) {p q : Nat} (w : UInt64) (hbelow : p + 8 ≤ q + 2 ^ 64) (habove : q + 8 ≤ p + 2 ^ 64)
    (hout : q + 8 ≤ p ∨ p + 8 ≤ q) : (m.setWord p w).word q = m.word q :=
  word_congr fun r _ _ => m.read_setWord w (by omega) (by omega) (by omega)

/-- Writing a word changes nothing behind it. -/
theorem agreesFrom_setWord (m : Memory) {p q : Nat} (w : UInt64) (hp : p + 8 ≤ 2 ^ 64) (h : p + 8 ≤ q) :
    AgreesFrom q (m.setWord p w) m :=
  fun r _ hr => m.read_setWord w (by omega) (by omega) (by omega)

/-- Memory that agrees has the same words. -/
theorem AgreesFrom.word {m m' : Memory} {p q : Nat} (h : AgreesFrom p m m') (hp : p ≤ q) (hq : q + 8 ≤ 2 ^ 64) :
    m.word q = m'.word q :=
  word_congr fun r _ _ => h r (by omega) (by omega)

/-- Memory that agrees has the same words on the stack. -/
theorem AgreesFrom.stacked {m m' : Memory} {p : Nat} {ws : List UInt64} (h : AgreesFrom p m m') (hp : p + 8 * ws.length ≤ 2 ^ 64)
    (hws : m'.Stacked p ws) : m.Stacked p ws := by
  induction ws generalizing p with
  | nil => trivial
  | cons w ws ih =>
    rw [List.length_cons] at hp
    exact ⟨(h.word (Nat.le_refl p) (by omega)).trans hws.1, ih (h.mono (by omega)) (by omega) hws.2⟩

/-- Words on the stack are the first ones and the others above them. -/
theorem stacked_append {m : Memory} {p : Nat} {ws ws' : List UInt64} :
    m.Stacked p (ws ++ ws') ↔ m.Stacked p ws ∧ m.Stacked (p + 8 * ws.length) ws' := by
  induction ws generalizing p with
  | nil => simp [Stacked]
  | cons w ws ih =>
    have hlength : p + 8 + 8 * ws.length = p + 8 * (ws.length + 1) := by omega
    rw [List.cons_append, Stacked, ih, Stacked, List.length_cons, and_assoc, hlength]

end Memory

/-! ## The processor's accesses -/

namespace Environment

/-- The addresses of the positions from one up to another lie in the stack, and not in the code. -/
def Mapped (env : Environment) (low high : Nat) : Prop :=
  ∀ q, low ≤ q → q < high → env.codeOffset? (UInt64.ofNat q) = none ∧ env.inStack (UInt64.ofNat q) = true

/-- The stack, and no code, lies from one position up to another. -/
def Writable (env : Environment) (low high : Nat) : Prop :=
  high ≤ 2 ^ 64 ∧
    ∀ q, low ≤ q → q < high → env.codeOffset? (UInt64.ofNat q) = none ∧ env.inStack (UInt64.ofNat q) = true

variable {env : Environment} {low high p : Nat} {s : State}

/-- Part of a writable stretch is writable. -/
theorem Writable.mono (h : env.Writable low high) {low' high' : Nat} (hlow : low ≤ low') (hhigh : high' ≤ high) :
    env.Writable low' high' :=
  ⟨hhigh.trans h.1, fun q hl hh => h.2 q (hlow.trans hl) (hh.trans_le hhigh)⟩

/-- Part of a mapped stretch is mapped. -/
theorem Mapped.mono (h : env.Mapped low high) {low' high' : Nat} (hlow : low ≤ low') (hhigh : high' ≤ high) :
    env.Mapped low' high' :=
  fun q hl hh => h q (hlow.trans hl) (hh.trans_le hhigh)

/-- What is writable is mapped. -/
theorem Writable.mapped (h : env.Writable low high) : env.Mapped low high := h.2

/-- Bytes are stored where memory is mapped. -/
theorem storeBytes_eq (bytes : List UInt8) (h : env.Mapped p (p + bytes.length)) :
    env.storeBytes s (UInt64.ofNat p) bytes = .ok { s with memory := s.memory.writeBytes p bytes } := by
  induction bytes generalizing s p with
  | nil => rfl
  | cons b rest ih =>
    rw [List.length_cons] at h
    obtain ⟨hcode, hstack⟩ := h p (Nat.le_refl p) (by omega)
    have hstore : env.store s (UInt64.ofNat p) b = .ok { s with memory := s.memory.write (UInt64.ofNat p) b } := by
      unfold store
      rw [if_pos ⟨by rw [hcode]; rfl, hstack⟩]
    have hrest := @ih (p + 1) { s with memory := s.memory.write (UInt64.ofNat p) b } (h.mono (by omega) (by omega))
    rw [UInt64.ofNat_add] at hrest
    rw [storeBytes, hstore]
    exact hrest

/-- Bytes are loaded where memory is mapped. -/
theorem loadBytes_eq {n : Nat} (h : env.Mapped p (p + n)) :
    env.loadBytes s (UInt64.ofNat p) n = .ok ((List.range' p n).map fun q => s.memory.read (UInt64.ofNat q)) := by
  induction n generalizing p with
  | zero => rfl
  | succ n ih =>
    obtain ⟨hcode, hstack⟩ := h p (Nat.le_refl p) (by omega)
    have hload : env.load s (UInt64.ofNat p) = .ok (s.memory.read (UInt64.ofNat p)) := by
      unfold load
      simp only [hcode, hstack, if_true]
    have hrest := ih (p := p + 1) (h.mono (by omega) (by omega))
    rw [UInt64.ofNat_add] at hrest
    rw [loadBytes, hload, List.range'_succ, List.map_cons]
    exact congrArg (Except.map (_ :: ·)) hrest

/-- A word is stored where memory is mapped. -/
theorem storeWord_eq {w : UInt64} (h : env.Mapped p (p + 8)) :
    env.storeWord s (UInt64.ofNat p) w = .ok { s with memory := s.memory.setWord p w } :=
  storeBytes_eq (X64.longBytes w) h

/-- A word is loaded where memory is mapped. -/
theorem loadWord_eq (h : env.Mapped p (p + 8)) : env.loadWord s (UInt64.ofNat p) = .ok (s.memory.word p) := by
  unfold loadWord
  rw [loadBytes_eq h]
  rfl

/-- A push writes the word below the stack pointer and lets the stack pointer go down to it. -/
theorem pushWord_eq {w : UInt64} (hrsp : s.get .rsp = UInt64.ofNat (p + 8)) (h : env.Writable p (p + 8)) :
    env.pushWord s w = .ok (State.set { s with memory := s.memory.setWord p w } .rsp (UInt64.ofNat p)) := by
  have htop : s.get .rsp - 8 = UInt64.ofNat p := by
    rw [hrsp, UInt64.ofNat_add]
    exact UInt64.add_sub_cancel _ _
  unfold pushWord
  simp only [htop, storeWord_eq h.mapped]
  rfl

/-- A pop reads the word at the stack pointer and lets the stack pointer go up behind it. -/
theorem popWord_eq (hrsp : s.get .rsp = UInt64.ofNat p) (h : env.Writable p (p + 8)) :
    env.popWord s = .ok (s.memory.word p, s.set .rsp (UInt64.ofNat (p + 8))) := by
  unfold popWord
  simp only [hrsp, loadWord_eq h.mapped, UInt64.ofNat_add]
  rfl

end Environment

end RegisterCompiler.Machine
