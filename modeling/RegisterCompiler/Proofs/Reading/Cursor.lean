import Mathlib
import RegisterCompiler.Source.Reader

/-!
# A window is a cursor on what its device delivers

The bytes before the first end or failure of a device are all that counts of its answers (`Device.byte?`), and a plain cursor on
them holds only how many were taken. A window stands behind the bytes taken out of it (`Window.Behind`): these and the bytes read
ahead are the first that the device delivers, and it was read once for each of them, and once more if it has ended. Filling a
window keeps that, and so does each call, which is answered as by the cursor (`Window.Behind.call`); so is every sequence of calls
(`Window.Behind.run`).
-/

namespace RegisterCompiler

/-! ## What a device delivers -/

namespace Device

variable {device : Device} {bytes : List UInt8} {m n : Nat} {b : UInt8}

/-- The byte of a number among those that a device delivers before its first end or failure. -/
def byte? (device : Device) (n : Nat) : Option UInt8 :=
  if ∀ i < n, (device.answer i).byte?.isSome then (device.answer n).byte? else none

/-- A device begins with some bytes. -/
def Begins (device : Device) (bytes : List UInt8) : Prop := ∀ n b, bytes[n]? = some b → device.answer n = .byte b

/-- The answer of a number is an end or a failure. -/
def Stops (device : Device) (n : Nat) : Prop := (device.answer n).byte? = none

/-- A device delivers some bytes before its first end or failure, and no others. -/
structure Delivers (device : Device) (bytes : List UInt8) : Prop where
  begins : device.Begins bytes
  stops : device.Stops bytes.length

/-- A device answers with a byte for each of those that it begins with. -/
theorem Begins.exists_byte (h : device.Begins bytes) (hn : n < bytes.length) : ∃ b, device.answer n = .byte b :=
  ⟨bytes[n], h n _ (List.getElem?_eq_getElem hn)⟩

/-- A device that begins with some bytes and answers with another one begins with that, too. -/
theorem Begins.concat (h : device.Begins bytes) (hb : device.answer bytes.length = .byte b) :
    device.Begins (bytes ++ [b]) := by
  intro n c hn
  rw [List.getElem?_append] at hn
  split at hn
  · exact h n c hn
  · rw [List.getElem?_singleton] at hn
    split at hn
    · have hlast : n = bytes.length := by omega
      rw [hlast, hb, Option.some.inj hn]
    · cases hn

/-- A byte that a device begins with is one that it delivers. -/
theorem byte?_of_begins (h : device.Begins bytes) (hn : bytes[n]? = some b) : device.byte? n = some b := by
  have hlt : n < bytes.length := (List.getElem?_eq_some_iff.1 hn).1
  have hbefore : ∀ i < n, (device.answer i).byte?.isSome := by
    intro i hi
    obtain ⟨c, hc⟩ := h.exists_byte (hi.trans hlt)
    rw [hc]
    rfl
  rw [byte?, if_pos hbefore, h n b hn]
  rfl

/-- From its first end or failure on, a device delivers nothing. -/
theorem byte?_of_stops (h : device.Stops m) (hmn : m ≤ n) : device.byte? n = none := by
  rw [byte?]
  split
  · rename_i hbefore
    rcases hmn.eq_or_lt with rfl | hlt
    · exact h
    · have hsome := hbefore m hlt
      rw [h] at hsome
      cases hsome
  · rfl

/-- What is delivered, byte by byte. -/
theorem Delivers.byte?_eq (h : device.Delivers bytes) (n : Nat) : device.byte? n = bytes[n]? := by
  cases hn : bytes[n]? with
  | some b => exact byte?_of_begins h.begins hn
  | none => exact byte?_of_stops h.stops (List.getElem?_eq_none_iff.1 hn)

/-- A device of given answers delivers their bytes up to the first that is none. -/
theorem delivers_ofAnswers (answers : List Answer) : (ofAnswers answers).Delivers (Answer.delivered answers) := by
  induction answers with
  | nil => exact ⟨nofun, rfl⟩
  | cons a answers ih =>
    cases a with
    | byte b =>
      refine ⟨fun n c hn => ?_, ih.stops⟩
      cases n with
      | zero => exact congrArg Answer.byte (Option.some.inj hn)
      | succ n => exact ih.begins n c hn
    | ended => exact ⟨nofun, rfl⟩
    | failed => exact ⟨nofun, rfl⟩

end Device

namespace Window

variable {device : Device} {w : Window device} {taken : List UInt8} {b : UInt8}

/-! ## The bytes read ahead -/

/-- The bytes of a window that are in use. -/
def ahead (w : Window device) : List UInt8 := w.buffer.toList.take w.used

/-- The bytes in use are as many as the window counts. -/
@[simp] theorem length_ahead (w : Window device) : w.ahead.length = w.used := by
  have := w.used_le
  simpa [ahead] using this

/-- The bytes in use are the first of the buffer. -/
theorem getElem?_ahead (w : Window device) (n : Nat) : w.ahead[n]? = if n < w.used then w.buffer[n]? else none := by
  rw [ahead, List.getElem?_take, Vector.getElem?_toList]

/-- Looking ahead shows the byte in use at that distance. -/
theorem peek_eq (w : Window device) (n : Nat) : w.peek n = w.ahead[n]? := by
  rw [peek, getElem?_ahead]
  split
  · rename_i h
    exact (Vector.getElem?_eq_getElem (Nat.lt_of_lt_of_le h w.used_le)).symm
  · rfl

/-- A stored byte comes behind those in use. -/
@[simp] theorem ahead_store (h : w.used < width) : (w.store b h).ahead = w.ahead ++ [b] := by
  refine List.ext_getElem? fun n => ?_
  have hstore : (w.store b h).buffer[n]? = if w.used = n then some b else w.buffer[n]? := by
    rw [store, Vector.getElem?_set]
  rw [getElem?_ahead, hstore, List.getElem?_append, length_ahead, getElem?_ahead]
  have hused : (w.store b h).used = w.used + 1 := rfl
  rcases Nat.lt_trichotomy n w.used with hn | rfl | hn
  · simp [hused, hn, hn.ne', Nat.lt_succ_of_lt hn]
  · simp [hused]
  · have hlast : n - w.used ≠ 0 := by omega
    simp [hused, Nat.not_lt.2 (Nat.succ_le_of_lt hn), Nat.not_lt.2 hn.le, hlast]

/-- Closing a window keeps the bytes in use. -/
@[simp] theorem ahead_close : w.close.ahead = w.ahead := rfl

/-- Shifting a window drops the first byte in use. -/
@[simp] theorem ahead_shift : w.shift.ahead = w.ahead.tail := by
  refine List.ext_getElem? fun n => ?_
  have hused : w.shift.used = w.used - 1 := rfl
  rw [getElem?_ahead, List.getElem?_tail, getElem?_ahead, hused]
  by_cases hn : n + 1 < w.used
  · have hwidth : n + 1 < width := Nat.lt_of_lt_of_le hn w.used_le
    have hshift : w.shift.buffer[n]? = w.buffer[n + 1]? := by
      rw [shift, Vector.getElem?_ofFn, dif_pos (Nat.lt_of_succ_lt hwidth), dif_pos hn]
      exact (Vector.getElem?_eq_getElem hwidth).symm
    rw [if_pos hn, if_pos (by omega), hshift]
  · rw [if_neg hn, if_neg (by omega)]

/-! ## Behind some bytes -/

/-- The bytes taken out of a window and those read ahead are the first of its device, which was read once for each of them, and
once more if it has ended. -/
structure Loaded (taken : List UInt8) (w : Window device) : Prop where
  begins : device.Begins (taken ++ w.ahead)
  reads : w.reads = (taken ++ w.ahead).length + w.ended.toNat
  stops : w.ended = true → device.Stops (taken ++ w.ahead).length

/-- A window stands behind some bytes: these were taken out of it, and it is full as long as its device has not ended. -/
structure Behind (taken : List UInt8) (w : Window device) : Prop extends Loaded taken w where
  full : w.ended = false → w.used = width
  position : w.position = Position.origin.advance taken

/-- The next byte of the device may be stored. -/
theorem Loaded.store (h : Loaded taken w) (hended : w.ended = false) (hb : device.answer w.reads = .byte b)
    (hused : w.used < width) : Loaded taken (w.store b hused) := by
  have hreads : w.reads = (taken ++ w.ahead).length := by simpa [hended] using h.reads
  have hahead : taken ++ (w.store b hused).ahead = (taken ++ w.ahead) ++ [b] := by
    rw [ahead_store, List.append_assoc]
  refine ⟨hahead ▸ h.begins.concat (hreads ▸ hb), ?_, fun hstop => absurd hstop (Bool.eq_false_iff.1 hended)⟩
  have hstore : (w.store b hused).reads = w.reads + 1 ∧ (w.store b hused).ended = false := ⟨rfl, hended⟩
  have hlength : (taken ++ w.ahead ++ [b]).length = (taken ++ w.ahead).length + 1 := List.length_append
  rw [hahead, hlength, hstore.1, hstore.2, hreads]
  rfl

/-- A window may be closed when its device has no next byte. -/
theorem Loaded.close (h : Loaded taken w) (hended : w.ended = false) (hb : (device.answer w.reads).byte? = none) :
    Loaded taken w.close := by
  have hreads : w.reads = (taken ++ w.ahead).length := by simpa [hended] using h.reads
  exact ⟨h.begins, congrArg (· + 1) hreads, fun _ => hreads ▸ hb⟩

/-- Filling a window changes only what is read ahead, and ends when it is full or the device has ended. -/
theorem Loaded.fill (h : Loaded taken w) :
    Loaded taken w.fill ∧ (w.fill.ended = false → w.fill.used = width) ∧ w.fill.position = w.position := by
  fun_induction Window.fill w with
  | case1 w hmore b hb ih => exact ih (h.store hmore.1 hb hmore.2)
  | case2 w hmore hb =>
    have hnone : (device.answer w.reads).byte? = none := by
      cases ha : device.answer w.reads with
      | byte b => exact absurd ha (hb b)
      | ended | failed => rfl
    exact ⟨h.close hmore.1 hnone, nofun, rfl⟩
  | case3 w hfull =>
    refine ⟨h, fun hended => ?_, rfl⟩
    have := w.used_le
    have : ¬w.used < width := fun hlt => hfull ⟨hended, hlt⟩
    omega

/-- A blank window has read nothing. -/
theorem loaded_blank (device : Device) : Loaded [] (blank device) := ⟨nofun, rfl, nofun⟩

/-- A new window stands before the first byte of its device. -/
theorem behind_ofDevice (device : Device) : Behind [] (ofDevice device) :=
  have h := (loaded_blank device).fill
  { toLoaded := h.1, full := h.2.1, position := h.2.2 }

/-! ## Taking a byte out -/

/-- The byte in front is the first of those in use. -/
theorem ahead_of_peek (h : w.peek 0 = some b) : w.ahead = b :: w.shift.ahead := by
  rw [peek_eq, ← List.head?_eq_getElem?] at h
  rw [ahead_shift, List.cons_head?_tail h]

/-- Shifting a window takes the byte in front out of it. -/
theorem Loaded.shift (h : Loaded taken w) (hb : w.peek 0 = some b) : Loaded (taken ++ [b]) w.shift := by
  have hahead : taken ++ [b] ++ w.shift.ahead = taken ++ w.ahead := by
    rw [ahead_of_peek hb, List.append_assoc]
    rfl
  constructor <;> rw [hahead]
  exacts [h.begins, h.reads, h.stops]

/-- Behind the byte in front a window is full again, and its position has stepped on. -/
theorem Behind.behind (h : Behind taken w) (hb : w.peek 0 = some b) : Behind (taken ++ [b]) (w.behind b) := by
  obtain ⟨hloaded, hfull, -⟩ := (h.toLoaded.shift hb).fill
  refine { toLoaded := ⟨hloaded.begins, hloaded.reads, hloaded.stops⟩, full := hfull, position := ?_ }
  rw [Position.advance_append, ← h.position]
  rfl

/-- Advancing gives the byte in front and stands behind it. -/
theorem Behind.advance_of_peek (h : Behind taken w) (hb : w.peek 0 = some b) :
    w.advance = (some b, w.behind b) ∧ Behind (taken ++ [b]) (w.behind b) := by
  refine ⟨?_, h.behind hb⟩
  rw [advance, hb]

/-- With no byte in front, advancing changes nothing. -/
theorem advance_of_peek_eq_none (h : w.peek 0 = none) : w.advance = (none, w) := by
  rw [advance, h]

/-! ## Looking ahead -/

/-- Behind the bytes read ahead nothing is delivered, unless the window is full of them. -/
theorem Behind.peek_eq_byte? (h : Behind taken w) {distance : Nat} (hd : distance < width) :
    w.peek distance = device.byte? (taken.length + distance) := by
  rw [peek_eq]
  cases hb : w.ahead[distance]? with
  | some b =>
    refine (Device.byte?_of_begins h.begins ?_).symm
    rw [List.getElem?_append_right (Nat.le_add_right _ _), Nat.add_sub_cancel_left, hb]
  | none =>
    have hused : w.used ≤ distance := by simpa using hb
    have hended : w.ended = true := by
      by_contra hopen
      have := h.full (Bool.eq_false_iff.2 hopen)
      omega
    have hlength : (taken ++ w.ahead).length ≤ taken.length + distance := by
      rw [List.length_append, length_ahead]
      omega
    exact (Device.byte?_of_stops (h.stops hended) hlength).symm

/-! ## Any calls -/

/-- What a window or a cursor is asked. -/
inductive Call where
  | peek (distance : Fin width)
  | advance
  deriving DecidableEq, Repr

namespace Call

/-- The answers to some calls, and what stands behind them. -/
def run {σ : Type} (call : σ → Call → Option UInt8 × σ) (s : σ) : List Call → List (Option UInt8) × σ
  | [] => ([], s)
  | c :: calls => (run call (call s c).2 calls).map ((call s c).1 :: ·) id

/-- The bytes that a call with an answer takes out. -/
def out : Call → Option UInt8 → List UInt8
  | peek _, _ => []
  | advance, answer => answer.toList

/-- The bytes that some calls with their answers take out. -/
def outs (calls : List Call) (answers : List (Option UInt8)) : List UInt8 := (List.zipWith out calls answers).flatten

end Call

/-- A call on a window. -/
def call (w : Window device) : Call → Option UInt8 × Window device
  | .peek distance => (w.peek distance, w)
  | .advance => w.advance

end Window

/-- A call on a plain cursor on what a device delivers, of which some bytes were taken. -/
def Device.cursor (device : Device) (taken : Nat) : Window.Call → Option UInt8 × Nat
  | .peek distance => (device.byte? (taken + distance), taken)
  | .advance => (device.byte? taken, if (device.byte? taken).isSome then taken + 1 else taken)

namespace Window

variable {device : Device} {w : Window device} {taken : List UInt8}

/-- A call is answered as by the cursor, and leaves the window behind what it takes out. -/
theorem Behind.call (h : Behind taken w) (c : Call) : ∃ answer, (w.call c).1 = answer ∧
    device.cursor taken.length c = (answer, (taken ++ c.out answer).length) ∧
    Behind (taken ++ c.out answer) (w.call c).2 := by
  cases c with
  | peek distance =>
    refine ⟨w.peek distance, rfl, ?_, ?_⟩
    · rw [Device.cursor, ← h.peek_eq_byte? distance.isLt, Call.out, List.append_nil]
    · rw [Call.out, List.append_nil]
      exact h
  | advance =>
    have hpeek : w.peek 0 = device.byte? taken.length := h.peek_eq_byte? (by decide)
    cases hb : w.peek 0 with
    | none =>
      have hadvance : w.call .advance = (none, w) := advance_of_peek_eq_none hb
      refine ⟨none, congrArg Prod.fst hadvance, ?_, ?_⟩
      · rw [Device.cursor, ← hpeek, hb, Call.out, Option.toList_none, List.append_nil]
        rfl
      · rw [hadvance, Call.out, Option.toList_none, List.append_nil]
        exact h
    | some b =>
      obtain ⟨hadvance, hbehind⟩ := h.advance_of_peek hb
      refine ⟨some b, congrArg Prod.fst hadvance, ?_, ?_⟩
      · rw [Device.cursor, ← hpeek, hb, Call.out, Option.toList_some, List.length_append]
        rfl
      · rw [Window.call, hadvance]
        exact hbehind

/-- Any calls are answered as by the cursor, and leave the window behind what they take out. -/
theorem Behind.run (h : Behind taken w) (calls : List Call) :
    ∃ answers, (Call.run Window.call w calls).1 = answers ∧
      Call.run device.cursor taken.length calls = (answers, (taken ++ Call.outs calls answers).length) ∧
      Behind (taken ++ Call.outs calls answers) (Call.run Window.call w calls).2 := by
  induction calls generalizing w taken with
  | nil => exact ⟨[], rfl, by simp [Call.run, Call.outs], by simpa [Call.run, Call.outs] using h⟩
  | cons c calls ih =>
    obtain ⟨answer, hanswer, hcursor, hbehind⟩ := h.call c
    obtain ⟨answers, hanswers, hcursors, hrun⟩ := ih hbehind
    have houts : taken ++ Call.outs (c :: calls) (answer :: answers) =
        taken ++ c.out answer ++ Call.outs calls answers := by
      simp [Call.outs]
    refine ⟨answer :: answers, ?_, ?_, ?_⟩
    · rw [Call.run, hanswer, ← hanswers]
      rfl
    · rw [Call.run, hcursor, hcursors, houts]
      rfl
    · rw [houts]
      exact hrun

/-- What a device delivers behind a failure is never seen. -/
example : (Call.run Window.call (ofDevice (.ofAnswers [.byte 0x61, .failed, .byte 0x62])) [.peek 1, .advance, .advance]).1 =
    [none, some 0x61, none] := by cbv

end Window
end RegisterCompiler
