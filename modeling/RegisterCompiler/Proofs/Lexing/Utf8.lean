import Mathlib
import RegisterCompiler.Text.Escape
import RegisterCompiler.Text.Lossy

/-!
# Characters as bytes

The bytes of a text are those of its characters in a row, and a character is either one byte below 0x80 or several bytes none
of which is (`encodeChar_ascii`, `encodeChar_wide`). So whoever reads bytes and stops at bytes below 0x80 stops between
characters. Lossy decoding replaces nothing in such bytes: it gives the characters back (`decodeLossy_encode`).
-/

namespace RegisterCompiler

/-- The bytes of characters in UTF-8. -/
def encode (chars : List Char) : List UInt8 := chars.flatMap String.utf8EncodeChar

/-- No characters have no bytes. -/
@[simp] theorem encode_nil : encode [] = [] := rfl

/-- The bytes of characters are those of the first one and those of the rest. -/
theorem encode_cons (c : Char) (chars : List Char) : encode (c :: chars) = String.utf8EncodeChar c ++ encode chars := rfl

/-- The bytes of two parts are those of each in a row. -/
@[simp] theorem encode_append (a b : List Char) : encode (a ++ b) = encode a ++ encode b := by
  simp [encode]

/-- The bytes of a text are the bytes of its characters. -/
theorem utf8Bytes_eq_encode (text : String) : utf8Bytes text = encode text.toList := by
  have h : text.toByteArray = text.toList.utf8Encode := String.utf8Encode_toList.symm
  simp [utf8Bytes, encode, h, List.utf8Encode]

/-! ## The bytes of a character -/

/-- The numbers of characters: no surrogates, and none above 0x10FFFF. -/
theorem char_valid (c : Char) : c.toNat < 0xD800 ∨ 0xDFFF < c.toNat ∧ c.toNat < 0x110000 := c.valid

/-- The first byte of a longer character: the mark of its length and the number's highest bits. -/
def leadByte (mark high : Nat) : UInt8 := UInt8.ofNat (high + mark)

/-- A byte behind the first: the six lowest bits of what is left of the number. -/
def tailByte (n : Nat) : UInt8 := UInt8.ofNat (n % 64 + 0x80)

/-- A lead byte is the sum of its mark and its high bits. -/
theorem toNat_leadByte {mark high : Nat} (h : high + mark < 256) : (leadByte mark high).toNat = high + mark := by
  rw [leadByte, UInt8.toNat_ofNat', Nat.mod_eq_of_lt h]

/-- A tail byte has six bits of a number. -/
theorem toNat_tailByte (n : Nat) : (tailByte n).toNat = n % 64 + 0x80 := by
  rw [tailByte, UInt8.toNat_ofNat', Nat.mod_eq_of_lt (by omega)]

/-- A character below 0x80 is one byte, its number. -/
theorem encodeChar_ascii {c : Char} (h : c.toNat < 0x80) : String.utf8EncodeChar c = [UInt8.ofNat c.toNat] := by
  have h1 : c.val.toNat ≤ 0x7F := Nat.le_of_lt_succ h
  exact if_pos h1

/-- The two bytes of a character below 0x800. -/
theorem encodeChar_two {c : Char} (h : 0x80 ≤ c.toNat) (h' : c.toNat < 0x800) :
    String.utf8EncodeChar c = [leadByte 0xC0 (c.toNat / 64), tailByte c.toNat] := by
  have h1 : ¬ c.val.toNat ≤ 0x7F := Nat.not_le_of_lt h
  have h2 : c.val.toNat ≤ 0x7FF := Nat.le_of_lt_succ h'
  have h3 : c.toNat / 64 % 0x20 = c.toNat / 64 := by omega
  rw [String.utf8EncodeChar, if_neg h1, if_pos h2, ← h3]
  rfl

/-- The three bytes of a character below 0x10000. -/
theorem encodeChar_three {c : Char} (h : 0x800 ≤ c.toNat) (h' : c.toNat < 0x10000) :
    String.utf8EncodeChar c = [leadByte 0xE0 (c.toNat / 4096), tailByte (c.toNat / 64), tailByte c.toNat] := by
  have h1 : ¬ c.val.toNat ≤ 0x7F := Nat.not_le_of_lt (lt_of_lt_of_le (by decide) h)
  have h2 : ¬ c.val.toNat ≤ 0x7FF := Nat.not_le_of_lt h
  have h3 : c.val.toNat ≤ 0xFFFF := Nat.le_of_lt_succ h'
  have h4 : c.toNat / 4096 % 0x10 = c.toNat / 4096 := by omega
  rw [String.utf8EncodeChar, if_neg h1, if_neg h2, if_pos h3, ← h4]
  rfl

/-- The four bytes of a character from 0x10000 on. -/
theorem encodeChar_four {c : Char} (h : 0x10000 ≤ c.toNat) :
    String.utf8EncodeChar c =
      [leadByte 0xF0 (c.toNat / 262144), tailByte (c.toNat / 4096), tailByte (c.toNat / 64), tailByte c.toNat] := by
  have h1 : ¬ c.val.toNat ≤ 0x7F := Nat.not_le_of_lt (lt_of_lt_of_le (by decide) h)
  have h2 : ¬ c.val.toNat ≤ 0x7FF := Nat.not_le_of_lt (lt_of_lt_of_le (by decide) h)
  have h3 : ¬ c.val.toNat ≤ 0xFFFF := Nat.not_le_of_lt h
  have h4 : c.toNat / 262144 % 0x08 = c.toNat / 262144 := by have := char_valid c; omega
  rw [String.utf8EncodeChar, if_neg h1, if_neg h2, if_neg h3, ← h4]
  rfl

/-- The bytes of a longer character: a byte that announces the length, and others, all from 0x80 on. -/
inductive WideBytes (c : Char) : List UInt8 → Prop
  | two : 0x80 ≤ c.toNat → c.toNat < 0x800 → WideBytes c [leadByte 0xC0 (c.toNat / 64), tailByte c.toNat]
  | three : 0x800 ≤ c.toNat → c.toNat < 0x10000 →
      WideBytes c [leadByte 0xE0 (c.toNat / 4096), tailByte (c.toNat / 64), tailByte c.toNat]
  | four : 0x10000 ≤ c.toNat → WideBytes c
      [leadByte 0xF0 (c.toNat / 262144), tailByte (c.toNat / 4096), tailByte (c.toNat / 64), tailByte c.toNat]

/-- A character that is not ASCII has two bytes or more. -/
theorem wideBytes {c : Char} (h : 0x80 ≤ c.toNat) : WideBytes c (String.utf8EncodeChar c) := by
  rcases Nat.lt_or_ge c.toNat 0x800 with h2 | h2
  · rw [encodeChar_two h h2]
    exact .two h h2
  rcases Nat.lt_or_ge c.toNat 0x10000 with h3 | h3
  · rw [encodeChar_three h2 h3]
    exact .three h2 h3
  · rw [encodeChar_four h3]
    exact .four h3

/-- A tail byte depends on six bits only. -/
theorem tailByte_mod (n : Nat) : tailByte n = tailByte (n % 64) := by
  rw [tailByte, tailByte, Nat.mod_mod]

/-- A tail byte continues a character. -/
theorem isContinuation_tailByte (n : Nat) : isContinuation (tailByte n) = true := by
  have h : ∀ m < 64, isContinuation (tailByte m) = true := by decide
  rw [tailByte_mod]
  exact h _ (Nat.mod_lt _ (by decide))

/-- What continues a character is not ASCII. -/
theorem le_of_isContinuation {b : UInt8} (h : isContinuation b = true) : 0x80 ≤ b := by
  simp only [isContinuation, Bool.and_eq_true, decide_eq_true_eq] at h
  exact h.1

/-- A lead byte is not ASCII. -/
theorem le_leadByte {mark high : Nat} (h : 0x80 ≤ mark) (hb : high + mark < 256) : 0x80 ≤ leadByte mark high := by
  rw [UInt8.le_iff_toNat_le, toNat_leadByte hb]
  exact Nat.le_add_left_of_le h

/-- A tail byte adds its six bits. -/
theorem addContinuation_tailByte (m n : Nat) : addContinuation m (tailByte n) = m * 64 + n % 64 := by
  have h := toNat_tailByte n
  unfold addContinuation
  omega

/-- Every character from 0x80 on is bytes from 0x80 on, at least one. -/
theorem encodeChar_wide {c : Char} (h : 0x80 ≤ c.toNat) :
    ∃ b more, String.utf8EncodeChar c = b :: more ∧ ∀ x ∈ b :: more, 0x80 ≤ x := by
  have hv := char_valid c
  have tail (n : Nat) : 0x80 ≤ tailByte n := le_of_isContinuation (isContinuation_tailByte n)
  generalize hbytes : String.utf8EncodeChar c = bytes
  cases hbytes ▸ wideBytes h with
  | two h2 h3 =>
    have lead : 0x80 ≤ leadByte 0xC0 (c.toNat / 64) := le_leadByte (by decide) (by omega)
    exact ⟨_, _, rfl, by simp only [List.forall_mem_cons, lead, tail]; simp⟩
  | three h2 h3 =>
    have lead : 0x80 ≤ leadByte 0xE0 (c.toNat / 4096) := le_leadByte (by decide) (by omega)
    exact ⟨_, _, rfl, by simp only [List.forall_mem_cons, lead, tail]; simp⟩
  | four h2 =>
    have lead : 0x80 ≤ leadByte 0xF0 (c.toNat / 262144) := le_leadByte (by decide) (by omega)
    exact ⟨_, _, rfl, by simp only [List.forall_mem_cons, lead, tail]; simp⟩

/-- Every character has a first byte. -/
theorem exists_encode_cons (c : Char) (chars : List Char) : ∃ b bytes, encode (c :: chars) = b :: bytes := by
  rw [encode_cons]
  rcases Nat.lt_or_ge c.toNat 0x80 with h | h
  · exact ⟨_, _, by rw [encodeChar_ascii h]; rfl⟩
  · obtain ⟨b, more, hb, -⟩ := encodeChar_wide h
    exact ⟨b, more ++ encode chars, by rw [hb]; rfl⟩

/-! ## Lossy decoding loses nothing of a text -/

/-- What the lead byte of two announces: one byte that continues. -/
theorem announced_two : ∀ m < 32, 2 ≤ m → announced (leadByte 0xC0 m) = some (1, 0x80, 0xBF) := by decide

/-- Behind 0xE0 and 0xED the second byte is bounded more closely: no number below 0x800 and no surrogate. -/
theorem announced_three : ∀ m < 16, announced (leadByte 0xE0 m) =
    some (2, if m = 0 then 0xA0 else 0x80, if m = 0xD then 0x9F else 0xBF) := by decide

/-- Behind 0xF0 and 0xF4 the second byte is bounded more closely: no number below 0x10000 and none above 0x10FFFF. -/
theorem announced_four : ∀ m < 5, announced (leadByte 0xF0 m) =
    some (3, if m = 0 then 0x90 else 0x80, if m = 4 then 0x8F else 0xBF) := by decide

/-- A byte between bounds, by their numbers. -/
theorem tailByte_between {low high : UInt8} {n : Nat} (hl : low.toNat ≤ n % 64 + 0x80) (hh : n % 64 + 0x80 ≤ high.toNat) :
    low ≤ tailByte n ∧ tailByte n ≤ high := by
  rw [UInt8.le_iff_toNat_le, UInt8.le_iff_toNat_le, toNat_tailByte]
  exact ⟨hl, hh⟩

/-- The second byte of a character, behind a first byte that raises the lower bound or lowers the upper one. -/
theorem tailByte_between_ite {m n a b : Nat} {low high : UInt8} (hl : m = a → low.toNat ≤ n % 64 + 0x80)
    (hh : m = b → n % 64 + 0x80 ≤ high.toNat) :
    (if m = a then low else 0x80) ≤ tailByte n ∧ tailByte n ≤ (if m = b then high else 0xBF) := by
  apply tailByte_between
  · split
    · exact hl ‹_›
    · exact Nat.le_add_left _ _
  · split
    · exact hh ‹_›
    · exact Nat.add_le_add_right (Nat.le_of_lt_succ (Nat.mod_lt _ (by decide))) _

/-- A lead byte is not below 0x80. -/
theorem not_leadByte_lt {mark high : Nat} (h : 0x80 ≤ mark) (hb : high + mark < 256) : ¬ leadByte mark high < 0x80 :=
  UInt8.not_lt.2 (le_leadByte h hb)

/-- An ASCII byte is read as its character. -/
theorem decodeLossy_ascii {c : Char} (h : c.toNat < 0x80) (rest : List UInt8) :
    decodeLossy (UInt8.ofNat c.toNat :: rest) = c :: decodeLossy rest := by
  have hn : (UInt8.ofNat c.toNat).toNat = c.toNat := by rw [UInt8.toNat_ofNat', Nat.mod_eq_of_lt (by omega)]
  have hlt : UInt8.ofNat c.toNat < 0x80 := by
    rw [UInt8.lt_iff_toNat_lt, hn]
    exact h
  rw [decodeLossy.eq_def]
  simp only [if_pos hlt, hn, Char.ofNat_toNat]

/-- The two bytes of a character are read as it. -/
theorem decodeLossy_two {c : Char} (h : 0x80 ≤ c.toNat) (h' : c.toNat < 0x800) (rest : List UInt8) :
    decodeLossy (leadByte 0xC0 (c.toNat / 64) :: tailByte c.toNat :: rest) = c :: decodeLossy rest := by
  have hlead : c.toNat / 64 + 0xC0 < 256 := by omega
  have hnumber : addContinuation ((leadByte 0xC0 (c.toNat / 64)).toNat - 0xC0) (tailByte c.toNat) = c.toNat := by
    rw [addContinuation_tailByte, toNat_leadByte hlead]
    omega
  have hb : (0x80 : UInt8) ≤ tailByte c.toNat ∧ tailByte c.toNat ≤ 0xBF :=
    tailByte_between (Nat.le_add_left _ _) (Nat.add_le_add_right (Nat.le_of_lt_succ (Nat.mod_lt _ (by decide))) _)
  rw [decodeLossy.eq_def]
  simp only [if_neg (not_leadByte_lt (by decide) hlead), announced_two _ (by omega : c.toNat / 64 < 32) (by omega),
    if_pos hb, hnumber, Char.ofNat_toNat, if_true]

/-- The three bytes of a character are read as it. -/
theorem decodeLossy_three {c : Char} (h : 0x800 ≤ c.toNat) (h' : c.toNat < 0x10000) (rest : List UInt8) :
    decodeLossy (leadByte 0xE0 (c.toNat / 4096) :: tailByte (c.toNat / 64) :: tailByte c.toNat :: rest) =
      c :: decodeLossy rest := by
  have hv := char_valid c
  have hlead : c.toNat / 4096 + 0xE0 < 256 := by omega
  have hnumber : addContinuation (addContinuation ((leadByte 0xE0 (c.toNat / 4096)).toNat - 0xE0) (tailByte (c.toNat / 64)))
      (tailByte c.toNat) = c.toNat := by
    rw [addContinuation_tailByte, addContinuation_tailByte, toNat_leadByte hlead]
    omega
  have hb : (if c.toNat / 4096 = 0 then 0xA0 else 0x80) ≤ tailByte (c.toNat / 64) ∧
      tailByte (c.toNat / 64) ≤ (if c.toNat / 4096 = 0xD then 0x9F else 0xBF) :=
    tailByte_between_ite (fun h0 => by change 0xA0 ≤ _; omega) (fun hD => by change _ ≤ 0x9F; omega)
  rw [decodeLossy.eq_def]
  simp only [if_neg (not_leadByte_lt (by decide) hlead), announced_three _ (by omega : c.toNat / 4096 < 16),
    if_pos hb, isContinuation_tailByte, hnumber, Char.ofNat_toNat, if_true, if_false, Nat.reduceEqDiff]

/-- The four bytes of a character are read as it. -/
theorem decodeLossy_four {c : Char} (h : 0x10000 ≤ c.toNat) (rest : List UInt8) :
    decodeLossy (leadByte 0xF0 (c.toNat / 262144) :: tailByte (c.toNat / 4096) :: tailByte (c.toNat / 64) :: tailByte c.toNat ::
      rest) = c :: decodeLossy rest := by
  have hv := char_valid c
  have hlead : c.toNat / 262144 + 0xF0 < 256 := by omega
  have hnumber : addContinuation (addContinuation (addContinuation ((leadByte 0xF0 (c.toNat / 262144)).toNat - 0xF0)
      (tailByte (c.toNat / 4096))) (tailByte (c.toNat / 64))) (tailByte c.toNat) = c.toNat := by
    rw [addContinuation_tailByte, addContinuation_tailByte, addContinuation_tailByte, toNat_leadByte hlead]
    omega
  have hb : (if c.toNat / 262144 = 0 then 0x90 else 0x80) ≤ tailByte (c.toNat / 4096) ∧
      tailByte (c.toNat / 4096) ≤ (if c.toNat / 262144 = 4 then 0x8F else 0xBF) :=
    tailByte_between_ite (fun h0 => by change 0x90 ≤ _; omega) (fun h4 => by change _ ≤ 0x8F; omega)
  rw [decodeLossy.eq_def]
  simp only [if_neg (not_leadByte_lt (by decide) hlead), announced_four _ (by omega : c.toNat / 262144 < 5),
    if_pos hb, isContinuation_tailByte, hnumber, Char.ofNat_toNat, if_true, if_false, Nat.reduceEqDiff]

/-- The bytes of a character are read as it, with anything behind them. -/
theorem decodeLossy_encodeChar (c : Char) (rest : List UInt8) :
    decodeLossy (String.utf8EncodeChar c ++ rest) = c :: decodeLossy rest := by
  rcases Nat.lt_or_ge c.toNat 0x80 with h | h
  · rw [encodeChar_ascii h]
    exact decodeLossy_ascii h rest
  generalize hbytes : String.utf8EncodeChar c = bytes
  cases hbytes ▸ wideBytes h with
  | two h2 h3 => exact decodeLossy_two h2 h3 rest
  | three h2 h3 => exact decodeLossy_three h2 h3 rest
  | four h2 => exact decodeLossy_four h2 rest

/-- So are the bytes of characters. -/
theorem decodeLossy_encode_append (chars : List Char) (rest : List UInt8) :
    decodeLossy (encode chars ++ rest) = chars ++ decodeLossy rest := by
  induction chars with
  | nil => rfl
  | cons c chars ih => rw [encode_cons, List.append_assoc, decodeLossy_encodeChar, ih, List.cons_append]

/-- Decoding gives the characters back. -/
theorem decodeLossy_encode (chars : List Char) : decodeLossy (encode chars) = chars := by
  have hnil : decodeLossy [] = [] := by rw [decodeLossy.eq_def]
  have h := decodeLossy_encode_append chars []
  rwa [List.append_nil, hnil, List.append_nil] at h

/-- The text of encoded characters is their text. -/
theorem lossyText_encode (chars : List Char) : lossyText (encode chars) = String.ofList chars := by
  rw [lossyText, decodeLossy_encode]

/-- Characters with the same bytes are the same. -/
theorem encode_injective {a b : List Char} (h : encode a = encode b) : a = b := by
  rw [← decodeLossy_encode a, h, decodeLossy_encode]

/-- Characters whose bytes other characters begin with are the first of these. -/
theorem isPrefix_of_encode {a b : List Char} (h : encode a <+: encode b) : a <+: b := by
  obtain ⟨rest, h⟩ := h
  refine ⟨decodeLossy rest, ?_⟩
  rw [← decodeLossy_encode_append, h, decodeLossy_encode]

end RegisterCompiler
