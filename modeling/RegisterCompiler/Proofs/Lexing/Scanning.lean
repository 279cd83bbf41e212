import Mathlib
import RegisterCompiler.Proofs.Lexing.Lexeme

/-!
# Scanning a token

`Fits kind first more rest` says, for each way to scan a token, which bytes are one of a kind and what must not follow them.
The scan for the first byte reads exactly such bytes (`Fits.scan`, `Scan.fitting`), whatever is cut off behind them
(`Fits.shorten`), and in bytes of characters they are the texts of tokens (`Fits.exists_lexeme`, `Lexeme.exists_fits`). A string
is cut at its closing quote, which is no byte of any other character, so the cut is between characters
(`QuotedBytes.exists_quoted`).
-/

namespace RegisterCompiler

/-! ## The bytes of a string -/

/-- What stands between the quotes of a string, by bytes. -/
inductive QuotedBytes : List UInt8 → List UInt8 → Prop
  | nil : QuotedBytes [] []
  | plain {b : UInt8} {written value : List UInt8} :
      b ≠ quoteByte → b ≠ backslashByte → QuotedBytes written value → QuotedBytes (b :: written) (b :: value)
  | escape {code v : UInt8} {written value : List UInt8} :
      escapedByte? code = some v → QuotedBytes written value → QuotedBytes (backslashByte :: code :: written) (v :: value)

/-- A string that is closed behind one more byte was closed without it. -/
theorem StringBody.cons_eq_closed {v : UInt8} {w value source rest : List UInt8} {body : StringBody}
    (h : body.cons v w = .closed value source rest) :
    ∃ value' source', body = .closed value' source' rest ∧ value = v :: value' ∧ source = w ++ source' := by
  cases body with
  | closed value' source' rest' =>
    obtain ⟨rfl, rfl, rfl⟩ := StringBody.closed.inj h
    exact ⟨_, _, rfl, rfl, rfl⟩
  | invalidEscape => cases h
  | endInEscape => cases h
  | unterminated => cases h

/-- What is read of a closed string is well quoted. -/
theorem quotedBytes_of_scan : ∀ {bytes value source rest : List UInt8},
    StringBody.scan bytes = .closed value source rest → QuotedBytes source value
  | [], _, _, _, h => by cases h
  | b :: bytes, value, source, rest, h => by
    rw [StringBody.scan.eq_def] at h
    simp only at h
    by_cases hq : b = quoteByte
    · rw [if_pos hq] at h
      obtain ⟨rfl, rfl, rfl⟩ := StringBody.closed.inj h
      exact .nil
    rw [if_neg hq] at h
    by_cases hb : b = backslashByte
    · rw [if_pos hb] at h
      cases bytes with
      | nil => cases h
      | cons code bytes =>
        simp only at h
        cases hv : escapedByte? code with
        | none => rw [hv] at h; cases h
        | some v =>
          rw [hv] at h
          obtain ⟨value', source', hs, rfl, rfl⟩ := StringBody.cons_eq_closed h
          subst b
          exact .escape hv (quotedBytes_of_scan hs)
    · rw [if_neg hb] at h
      obtain ⟨value', source', hs, rfl, rfl⟩ := StringBody.cons_eq_closed h
      exact .plain hq hb (quotedBytes_of_scan hs)

/-- A well quoted body is read up to the quote behind it, whatever follows. -/
theorem QuotedBytes.scan {source value : List UInt8} (h : QuotedBytes source value) (rest : List UInt8) :
    StringBody.scan (source ++ quoteByte :: rest) = .closed value source rest := by
  induction h with
  | nil => rw [List.nil_append, StringBody.scan.eq_def]; exact if_pos rfl
  | @plain b written value hq hb _ ih =>
    rw [List.cons_append, StringBody.scan.eq_def]
    simp only [if_neg hq, if_neg hb, ih]
    rfl
  | @escape code v written value hv _ ih =>
    rw [List.cons_append, List.cons_append, StringBody.scan.eq_def]
    simp only [if_neg (show backslashByte ≠ quoteByte by decide), if_true, hv, ih]
    rfl

/-- Bytes that are neither quotes nor backslashes stand for themselves. -/
theorem QuotedBytes.append {plain written value : List UInt8} (hq : quoteByte ∉ plain) (hb : backslashByte ∉ plain)
    (h : QuotedBytes written value) : QuotedBytes (plain ++ written) (plain ++ value) := by
  induction plain with
  | nil => exact h
  | cons b plain ih =>
    rw [List.mem_cons, not_or] at hq hb
    exact .plain (Ne.symm hq.1) (Ne.symm hb.1) (ih hq.2 hb.2)

/-- Behind bytes that are neither quotes nor backslashes a body goes on as before. -/
theorem QuotedBytes.exists_of_append {plain tail source value rest : List UInt8} (hq : quoteByte ∉ plain)
    (hb : backslashByte ∉ plain) (h : QuotedBytes source value) (he : plain ++ tail = source ++ quoteByte :: rest) :
    ∃ source' value', source = plain ++ source' ∧ value = plain ++ value' ∧ QuotedBytes source' value' ∧
      tail = source' ++ quoteByte :: rest := by
  induction plain generalizing source value with
  | nil => exact ⟨source, value, rfl, rfl, h, he⟩
  | cons b plain ih =>
    rw [List.mem_cons, not_or] at hq hb
    cases h with
    | nil => exact absurd (List.cons_eq_cons.1 he).1.symm hq.1
    | escape => exact absurd (List.cons_eq_cons.1 he).1.symm hb.1
    | plain _ _ h =>
      obtain ⟨rfl, htail⟩ := List.cons_eq_cons.1 he
      obtain ⟨source', value', rfl, rfl, h', ht⟩ := ih hq.2 hb.2 h htail
      exact ⟨source', value', rfl, rfl, h', ht⟩

/-- A quote is ASCII. -/
theorem quoteByte_lt : quoteByte < 0x80 := by decide

/-- So is a backslash. -/
theorem backslashByte_lt : backslashByte < 0x80 := by decide

/-- The character of an ASCII byte is encoded as the byte. -/
theorem encode_charOfByte_cons {b : UInt8} (hb : b < 0x80) (chars : List Char) :
    encode (charOfByte b :: chars) = b :: encode chars := by
  rw [encode_cons, encodeChar_charOfByte hb]
  rfl

/-- A well quoted text is well quoted by its bytes. -/
theorem Quoted.bytes {written text : List Char} (h : Quoted written text) :
    QuotedBytes (encode written) (encode text) := by
  induction h with
  | nil => exact .nil
  | plain hq hb _ ih => exact ih.append (not_mem_encodeChar quoteByte_lt hq) (not_mem_encodeChar backslashByte_lt hb)
  | @escape code c written text hc _ ih =>
    obtain ⟨b, v, rfl, rfl, hv⟩ := escapedByte_of_mem_escapes hc
    obtain ⟨-, hb, hv'⟩ := mem_escapes_of_escapedByte hv
    rw [backslashChar, encode_charOfByte_cons backslashByte_lt, encode_charOfByte_cons hb, encode_charOfByte_cons hv']
    exact .escape hv ih

/-- Bytes of a text that are well quoted up to a quote are the bytes of characters that are. -/
theorem QuotedBytes.exists_quoted : ∀ {chars : List Char} {source value rest : List UInt8}, QuotedBytes source value →
    encode chars = source ++ quoteByte :: rest → ∃ written text more, chars = written ++ quoteChar :: more ∧
      encode written = source ∧ encode text = value ∧ encode more = rest ∧ Quoted written text
  | [], source, _, _, _, he => by cases source <;> cases he
  | c :: chars, source, value, rest, h, he => by
    by_cases hq : c = quoteChar
    · subst c
      rw [quoteChar, encode_charOfByte_cons quoteByte_lt] at he
      cases h with
      | nil => exact ⟨[], [], chars, rfl, rfl, rfl, (List.cons_eq_cons.1 he).2, .nil⟩
      | plain hq => exact absurd (List.cons_eq_cons.1 he).1.symm hq
      | escape => exact absurd (List.cons_eq_cons.1 he).1 (by decide)
    by_cases hb : c = backslashChar
    · subst c
      rw [backslashChar, encode_charOfByte_cons backslashByte_lt] at he
      cases h with
      | nil => exact absurd (List.cons_eq_cons.1 he).1 (by decide)
      | plain _ hb => exact absurd (List.cons_eq_cons.1 he).1.symm hb
      | @escape code v written value hv h =>
        obtain ⟨hm, hcode, hlt⟩ := mem_escapes_of_escapedByte hv
        obtain ⟨chars, rfl, hmore⟩ := exists_of_encode_eq_append (List.forall_mem_singleton.2 hcode)
          (show encode chars = [code] ++ (written ++ quoteByte :: rest) from (List.cons_eq_cons.1 he).2)
        obtain ⟨written, text, more, rfl, rfl, rfl, rfl, hw⟩ := exists_quoted h hmore
        refine ⟨backslashChar :: charOfByte code :: written, charOfByte v :: text, more, rfl, ?_, ?_, rfl, .escape hm hw⟩
        · rw [backslashChar, encode_charOfByte_cons backslashByte_lt, encode_charOfByte_cons hcode]
        · rw [encode_charOfByte_cons hlt]
    · obtain ⟨source', value', rfl, rfl, h', he'⟩ :=
        h.exists_of_append (not_mem_encodeChar quoteByte_lt hq) (not_mem_encodeChar backslashByte_lt hb) he
      obtain ⟨written, text, more, rfl, rfl, rfl, rfl, hw⟩ := exists_quoted h' he'
      exact ⟨c :: written, c :: text, more, rfl, rfl, rfl, rfl, .plain hq hb hw⟩
termination_by chars => chars.length

/-! ## What a scan reads -/

/-- Bytes below 0x80 are decoded one by one. -/
theorem lossyText_ascii {bytes : List UInt8} (h : ∀ b ∈ bytes, b < 0x80) : lossyText bytes = asciiText bytes := by
  conv_lhs => rw [← encode_map_charOfByte h, lossyText_encode]
  rfl

/-- The bytes do not begin with one of a class. -/
def Stops (p : UInt8 → Bool) (rest : List UInt8) : Prop := ∀ b ∈ rest.head?, p b = false

/-- Less of what stops a run stops it as well. -/
theorem Stops.shorten {p : UInt8 → Bool} {rest less : List UInt8} (h : Stops p rest) (hl : less <+: rest) : Stops p less := by
  obtain ⟨more, rfl⟩ := hl
  cases less with
  | nil => exact fun _ => nofun
  | cons b less => exact h

/-- What stops a run does so with more behind it. -/
theorem Stops.append {p : UInt8 → Bool} {rest behind : List UInt8} (h : Stops p rest) (hb : Stops p behind) :
    Stops p (rest ++ behind) := by
  cases rest with
  | nil => exact hb
  | cons b rest => exact h

/-- A run is taken up to what stops it, and no further. -/
theorem takeWhile_append_of_stops {p : UInt8 → Bool} {run rest : List UInt8} (hr : ∀ b ∈ run, p b) (hs : Stops p rest) :
    (run ++ rest).takeWhile p = run ∧ (run ++ rest).dropWhile p = rest := by
  rw [List.takeWhile_append_of_pos hr, List.dropWhile_append_of_pos hr]
  cases rest with
  | nil => exact ⟨List.append_nil _, rfl⟩
  | cons b rest =>
    have hb : p b = false := hs b rfl
    simp [hb]

/-- A sequence is a run of a class and what does not go on with it. -/
theorem exists_run (p : UInt8 → Bool) (bytes : List UInt8) :
    ∃ run rest, bytes = run ++ rest ∧ (∀ b ∈ run, p b) ∧ Stops p rest := by
  refine ⟨bytes.takeWhile p, bytes.dropWhile p, List.takeWhile_append_dropWhile.symm, fun b => List.mem_takeWhile_imp, ?_⟩
  intro b hb
  have h := List.head?_dropWhile_not p bytes
  rw [Option.mem_def.1 hb] at h
  exact h

namespace Scan

variable {first : UInt8} {more rest : List UInt8}

/-- A word is read up to what stops it. -/
theorem word_append (hm : ∀ b ∈ more, isWordByte b) (hs : Stops isWordByte rest) : word first (more ++ rest) =
    ⟨(TokenKind.ofWord? (asciiText (first :: more))).getD (.identifier (asciiText (first :: more))), [], first :: more,
      asciiText (first :: more), rest⟩ := by
  obtain ⟨htake, hdrop⟩ := takeWhile_append_of_stops hm hs
  rw [word, htake, hdrop]

/-- Digits with no fraction behind them are an integer. -/
theorem number_append (hm : ∀ b ∈ more, isDigitByte b) (hs : Stops isDigitByte rest)
    (hp : ∀ behind, rest = pointByte :: behind → Stops isDigitByte behind) :
    number first (more ++ rest) = ⟨integerKind (first :: more), [], first :: more, asciiText (first :: more), rest⟩ := by
  obtain ⟨htake, hdrop⟩ := takeWhile_append_of_stops hm hs
  rw [number, htake, hdrop]
  match rest with
  | [] => rfl
  | [_] => rfl
  | point :: digit :: behind =>
    have hn : ¬ (point = pointByte ∧ isDigitByte digit = true) := by
      rintro ⟨rfl, hd⟩
      exact absurd (hp _ rfl digit rfl) (by rw [hd]; decide)
    exact if_neg hn

/-- Digits, a point and digits are a fraction. -/
theorem number_append_fraction {digit : UInt8} {places : List UInt8} (hm : ∀ b ∈ more, isDigitByte b)
    (hd : isDigitByte digit) (hp : ∀ b ∈ places, isDigitByte b) (hs : Stops isDigitByte rest) :
    number first (more ++ pointByte :: digit :: (places ++ rest)) =
      ⟨.float (Binary64.nearest (digitsValue (first :: more ++ digit :: places)) (Nat.pow 10 (digit :: places).length)), [],
        first :: more ++ pointByte :: digit :: places, asciiText (first :: more ++ pointByte :: digit :: places), rest⟩ := by
  have hpoint : Stops isDigitByte (pointByte :: digit :: (places ++ rest)) := by
    rintro b ⟨⟩
    decide
  obtain ⟨htake, hdrop⟩ := takeWhile_append_of_stops hm hpoint
  obtain ⟨hplaces, hrest⟩ := takeWhile_append_of_stops hp hs
  rw [number, htake, hdrop]
  simp only [hd, and_self, if_true, hplaces, hrest]

/-- A quoted string is read up to its closing quote. -/
theorem string_append {source value : List UInt8} (h : QuotedBytes source value) (p : Position) :
    string p quoteByte (source ++ quoteByte :: rest) = ⟨.text (lossyText value), [], quoteByte :: source ++ [quoteByte],
      lossyText (quoteByte :: source ++ [quoteByte]), rest⟩ := by
  rw [string, h.scan]

/-- Two bytes that are a symbol together are read as this symbol. -/
theorem symbol_of_ofPair {second : UInt8} {s : Symbol}
    (h : Symbol.ofPair? (charOfByte first) (charOfByte second) = some s) :
    symbol first (second :: rest) = ⟨.symbol s, [], [first, second], asciiText [first, second], rest⟩ := by
  rw [symbol]
  simp only [h]

/-- A byte that is a symbol is read as it, unless the next byte makes it another one. -/
theorem symbol_of_ofChar {s : Symbol} (h : Symbol.ofChar? (charOfByte first) = some s)
    (hs : ∀ second ∈ rest.head?, Symbol.ofPair? (charOfByte first) (charOfByte second) = none) :
    symbol first rest = ⟨.symbol s, [], [first], asciiText [first], rest⟩ := by
  have hsingle : single first rest = ⟨.symbol s, [], [first], asciiText [first], rest⟩ := by
    rw [single, h, escapeByte_of_ofChar h]
  cases rest with
  | nil => exact hsingle
  | cons second rest =>
    rw [symbol]
    simp only [hs second rfl]
    exact hsingle

end Scan

/-- The bytes of a token of a kind, the first of them apart, and bytes behind it with which the token does not go on. -/
inductive Fits : TokenKind → UInt8 → List UInt8 → List UInt8 → Prop
  | word {first : UInt8} {more rest : List UInt8} : isWordStart first → (∀ b ∈ more, isWordByte b) → Stops isWordByte rest →
      Fits ((TokenKind.ofWord? (asciiText (first :: more))).getD (.identifier (asciiText (first :: more)))) first more rest
  | integer {first : UInt8} {more rest : List UInt8} (h : digitsValue (first :: more) < 0x8000000000000000) :
      isDigitByte first → (∀ b ∈ more, isDigitByte b) → Stops isDigitByte rest →
      (∀ behind, rest = pointByte :: behind → Stops isDigitByte behind) →
      Fits (.integer ⟨digitsValue (first :: more), h⟩) first more rest
  | fraction {first digit : UInt8} {more places rest : List UInt8} :
      isDigitByte first → (∀ b ∈ more, isDigitByte b) → isDigitByte digit → (∀ b ∈ places, isDigitByte b) →
      Stops isDigitByte rest →
      Fits (.float (Binary64.nearest (digitsValue (first :: more ++ digit :: places)) (Nat.pow 10 (digit :: places).length)))
        first (more ++ pointByte :: digit :: places) rest
  | string {source value rest : List UInt8} : QuotedBytes source value →
      Fits (.text (lossyText value)) quoteByte (source ++ [quoteByte]) rest
  | pair {first second : UInt8} {s : Symbol} {rest : List UInt8} :
      Symbol.ofPair? (charOfByte first) (charOfByte second) = some s → Fits (.symbol s) first [second] rest
  | single {first : UInt8} {s : Symbol} {rest : List UInt8} : Symbol.ofChar? (charOfByte first) = some s →
      (∀ second ∈ rest.head?, Symbol.ofPair? (charOfByte first) (charOfByte second) = none) → Fits (.symbol s) first [] rest

namespace Fits

variable {kind : TokenKind} {first : UInt8} {more rest : List UInt8}

/-- A token does not go on with less of what follows either. -/
theorem shorten {less : List UInt8} (h : Fits kind first more rest) (hl : less <+: rest) : Fits kind first more less := by
  cases h with
  | word hf hm hs => exact .word hf hm (hs.shorten hl)
  | integer h hf hm hs hp =>
    refine .integer h hf hm (hs.shorten hl) fun behind hb => ?_
    subst hb
    obtain ⟨more, rfl⟩ := hl
    exact (hp _ rfl).shorten (List.prefix_append _ _)
  | fraction hf hm hd hp hs => exact .fraction hf hm hd hp (hs.shorten hl)
  | string h => exact .string h
  | pair h => exact .pair h
  | single h hs =>
    refine .single h ?_
    obtain ⟨more, rfl⟩ := hl
    cases less with
    | nil => exact fun _ => nofun
    | cons b less => exact hs

/-- The bytes of a token that begins with no quote are below 0x80. -/
theorem ascii (h : Fits kind first more rest) (hq : first ≠ quoteByte) : ∀ b ∈ first :: more, b < 0x80 := by
  have digits {l : List UInt8} (hl : ∀ b ∈ l, isDigitByte b = true) : ∀ b ∈ l, b < 0x80 :=
    fun b hb => lt_of_isWordByte (isWordByte_of_isDigitByte (hl b hb))
  cases h with
  | word hf hm hs =>
    exact List.forall_mem_cons.2 ⟨lt_of_isWordByte (isWordByte_of_isWordStart hf), fun b hb => lt_of_isWordByte (hm b hb)⟩
  | integer h hf hm hs hp => exact digits (List.forall_mem_cons.2 ⟨hf, hm⟩)
  | fraction hf hm hd hp hs =>
    rw [← List.cons_append]
    refine List.forall_mem_append.2 ⟨digits (List.forall_mem_cons.2 ⟨hf, hm⟩), List.forall_mem_cons.2 ⟨by decide, ?_⟩⟩
    exact digits (List.forall_mem_cons.2 ⟨hd, hp⟩)
  | string h => exact absurd rfl hq
  | pair h =>
    refine List.forall_mem_cons.2 ⟨?_, List.forall_mem_singleton.2 (lt_of_ofPair h)⟩
    exact (class_of_isSymbolStart (isSymbolStart_of_ofPair h).1).1
  | single h hs => exact List.forall_mem_singleton.2 (class_of_isSymbolStart (isSymbolStart_of_ofChar h)).1

/-- A byte that begins a symbol is scanned as one. -/
theorem scan_symbol (h : isSymbolStart (charOfByte first) = true) (p : Position) (bytes : List UInt8) :
    Scan.scan p first bytes = Scan.symbol first bytes := by
  obtain ⟨-, hw, hd, hq, -⟩ := class_of_isSymbolStart h
  rw [Scan.scan, if_neg (by simp [hw]), if_neg (by simp [hd]), if_neg hq]

/-- A digit begins a number. -/
theorem scan_number (h : isDigitByte first = true) (p : Position) (bytes : List UInt8) :
    Scan.scan p first bytes = Scan.number first bytes := by
  rw [Scan.scan, if_neg (by simp [not_isWordStart_of_isDigitByte h]), if_pos h]

/-- The bytes of a token are what the scan for the first of them reads, whatever follows with which the token does not go on. -/
theorem scan (h : Fits kind first more rest) (p : Position) :
    Scan.scan p first (more ++ rest) = ⟨kind, [], first :: more, lossyText (first :: more), rest⟩ := by
  have htext (hq : first ≠ quoteByte) : lossyText (first :: more) = asciiText (first :: more) := lossyText_ascii (h.ascii hq)
  cases h with
  | word hf hm hs =>
    have hq : first ≠ quoteByte := by rintro rfl; exact absurd hf (by decide)
    rw [Scan.scan, if_pos hf, Scan.word_append hm hs, htext hq]
  | integer h hf hm hs hp =>
    have hq : first ≠ quoteByte := by rintro rfl; exact absurd hf (by decide)
    rw [scan_number hf, Scan.number_append hm hs hp, htext hq, Scan.integerKind, dif_pos h]
  | fraction hf hm hd hp hs =>
    have hq : first ≠ quoteByte := by rintro rfl; exact absurd hf (by decide)
    rw [scan_number hf, htext hq, List.append_assoc]
    exact Scan.number_append_fraction hm hd hp hs
  | string h =>
    rw [List.append_assoc]
    exact Scan.string_append h p
  | pair h =>
    have hstart := (isSymbolStart_of_ofPair h).1
    rw [scan_symbol hstart, htext (class_of_isSymbolStart hstart).2.2.2.1]
    exact Scan.symbol_of_ofPair h
  | single h hs =>
    have hstart := isSymbolStart_of_ofChar h
    rw [scan_symbol hstart, htext (class_of_isSymbolStart hstart).2.2.2.1]
    exact Scan.symbol_of_ofChar h hs

end Fits

namespace Scan

variable {first : UInt8} {bytes : List UInt8}

/-- A scan has read a token's bytes from the start of the given ones. -/
def Fitting (first : UInt8) (bytes : List UInt8) : Prop :=
  ∃ kind more rest, bytes = more ++ rest ∧ Fits kind first more rest

/-- A word fits: it is read as itself with anything behind it that stops it. -/
theorem fitting_word (hf : isWordStart first = true) : Fitting first bytes := by
  obtain ⟨more, rest, rfl, hm, hs⟩ := exists_run isWordByte bytes
  exact ⟨_, more, rest, rfl, .word hf hm hs⟩

/-- So does a number that is well-formed. -/
theorem fitting_number (hf : isDigitByte first = true) (h : ∀ fault, (number first bytes).kind ≠ .malformed fault) :
    Fitting first bytes := by
  obtain ⟨more, rest, rfl, hm, hs⟩ := exists_run isDigitByte bytes
  by_cases hp : ∀ behind, rest = pointByte :: behind → Stops isDigitByte behind
  · rw [number_append hm hs hp, integerKind] at h
    split at h
    · exact ⟨_, more, rest, rfl, .integer ‹_› hf hm hs hp⟩
    · exact absurd rfl (h _)
  · push Not at hp
    obtain ⟨behind, rfl, hbehind⟩ := hp
    obtain ⟨places, rest, rfl, hplaces, hrest⟩ := exists_run isDigitByte behind
    cases places with
    | nil => exact absurd hrest hbehind
    | cons digit places =>
      obtain ⟨hd, hplaces⟩ := List.forall_mem_cons.1 hplaces
      refine ⟨_, more ++ pointByte :: digit :: places, rest, ?_, .fraction hf hm hd hplaces hrest⟩
      simp

/-- So does a string that is closed. -/
theorem fitting_string (p : Position) (h : ∀ fault, (string p quoteByte bytes).kind ≠ .malformed fault) :
    Fitting quoteByte bytes := by
  have hi := StringBody.input_scan bytes
  rw [string] at h
  cases hs : StringBody.scan bytes with
  | closed value source rest =>
    rw [hs] at hi
    have hb : bytes = (source ++ [quoteByte]) ++ rest := by rw [← hi, StringBody.input, List.append_assoc]; rfl
    exact ⟨_, _, rest, hb, .string (quotedBytes_of_scan hs)⟩
  | invalidEscape => rw [hs] at h; exact absurd rfl (h _)
  | endInEscape => rw [hs] at h; exact absurd rfl (h _)
  | unterminated => rw [hs] at h; exact absurd rfl (h _)

/-- So does a symbol of one byte. -/
theorem fitting_single (h : ∀ fault, (single first bytes).kind ≠ .malformed fault)
    (hs : ∀ second ∈ bytes.head?, Symbol.ofPair? (charOfByte first) (charOfByte second) = none) : Fitting first bytes := by
  rw [single] at h
  cases hc : Symbol.ofChar? (charOfByte first) with
  | none => rw [hc] at h; exact absurd rfl (h _)
  | some s => exact ⟨_, [], bytes, rfl, .single hc hs⟩

/-- So does a symbol of one or two bytes. -/
theorem fitting_symbol (h : ∀ fault, (symbol first bytes).kind ≠ .malformed fault) : Fitting first bytes := by
  cases bytes with
  | nil => exact fitting_single h (fun _ => nofun)
  | cons second rest =>
    rw [symbol] at h
    cases hp : Symbol.ofPair? (charOfByte first) (charOfByte second) with
    | some s => exact ⟨_, [second], rest, rfl, .pair hp⟩
    | none =>
      simp only [hp] at h
      exact fitting_single h (by rintro b ⟨⟩; exact hp)

/-- Unless it is malformed, what a scan reads is the bytes of a token in front of what it leaves. -/
theorem fitting {p : Position} (h : ∀ fault, (scan p first bytes).kind ≠ .malformed fault) : Fitting first bytes := by
  rw [scan] at h
  split at h
  · exact fitting_word ‹_›
  · split at h
    · exact fitting_number ‹_› h
    · split at h
      · subst first
        exact fitting_string p h
      · exact fitting_symbol h

end Scan

/-! ## The bytes of tokens are the texts of tokens -/

/-- What is so of bytes is so of their characters. -/
theorem forall_mem_map_charOfByte {p : Char → Bool} {q : UInt8 → Bool} (h : ∀ b, p (charOfByte b) = q b) {bytes : List UInt8}
    (hb : ∀ b ∈ bytes, q b) : ∀ c ∈ bytes.map charOfByte, p c := by
  rw [List.forall_mem_map]
  exact fun b hm => (h b).trans (hb b hm)

/-- Bytes of a token below 0x80 are the text of one, character for character. -/
theorem Fits.lexeme_of_ascii {kind : TokenKind} {first : UInt8} {more rest : List UInt8} (h : Fits kind first more rest)
    (hq : first ≠ quoteByte) : Lexeme ((first :: more).map charOfByte) kind := by
  cases h with
  | word hf hm hs =>
    exact .word ((isWordStartChar_charOfByte _).trans hf) (forall_mem_map_charOfByte isWordChar_charOfByte hm)
  | integer h hf hm hs hp =>
    exact .integer h (List.cons_ne_nil _ _) (forall_mem_map_charOfByte isDigit_charOfByte (List.forall_mem_cons.2 ⟨hf, hm⟩))
  | @fraction first digit more places rest hf hm hd hp hs =>
    have hl : Lexeme ((first :: more).map charOfByte ++ '.' :: (digit :: places).map charOfByte) _ := .fraction
      (List.cons_ne_nil _ _) (forall_mem_map_charOfByte isDigit_charOfByte (List.forall_mem_cons.2 ⟨hf, hm⟩))
      (List.cons_ne_nil _ _) (forall_mem_map_charOfByte isDigit_charOfByte (List.forall_mem_cons.2 ⟨hd, hp⟩))
    rw [← List.map_append, List.length_map] at hl
    rw [← List.cons_append, List.map_append]
    exact hl
  | string h => exact absurd rfl hq
  | @pair first second s rest h =>
    have hl := Lexeme.symbol s
    rw [spelling_of_ofPair h] at hl
    exact hl
  | @single first s rest h hs =>
    have hl := Lexeme.symbol s
    rw [spelling_of_ofChar h] at hl
    exact hl

/-- Bytes of a token at the start of a text are its first characters, and these are the text of a token. -/
theorem Fits.exists_lexeme {kind : TokenKind} {first : UInt8} {more rest : List UInt8} (h : Fits kind first more rest)
    {chars : List Char} (he : encode chars = first :: more ++ rest) : ∃ lexeme behind, chars = lexeme ++ behind ∧
      encode lexeme = first :: more ∧ encode behind = rest ∧ Lexeme lexeme kind := by
  by_cases hq : first = quoteByte
  · subst hq
    cases h with
    | word hf => exact absurd hf (by decide)
    | integer _ hf => exact absurd hf (by decide)
    | fraction hf => exact absurd hf (by decide)
    | pair h => exact absurd (isSymbolStart_of_ofPair h).1 (by decide)
    | single h => exact absurd (isSymbolStart_of_ofChar h) (by decide)
    | @string source value rest h =>
      obtain ⟨chars, rfl, hmore⟩ := exists_of_encode_eq_append (List.forall_mem_singleton.2 quoteByte_lt)
        (show encode chars = [quoteByte] ++ (source ++ quoteByte :: rest) by rw [he]; simp)
      obtain ⟨written, text, behind, rfl, rfl, rfl, rfl, hw⟩ := h.exists_quoted hmore
      refine ⟨quoteChar :: written ++ [quoteChar], behind, by simp [quoteChar], ?_, rfl, ?_⟩
      · rw [List.cons_append, quoteChar, encode_charOfByte_cons quoteByte_lt, encode_append,
          encode_charOfByte_cons quoteByte_lt, encode_nil]
      · rw [lossyText_encode]
        exact .string hw
  · have ha := h.ascii hq
    obtain ⟨behind, hc, hb⟩ := exists_of_encode_eq_append ha he
    exact ⟨_, behind, hc, encode_map_charOfByte ha, hb, h.lexeme_of_ascii hq⟩

/-- The end of the input stops every run. -/
theorem Stops.nil {p : UInt8 → Bool} : Stops p [] := fun _ => nofun

/-- Characters of a class of single bytes are the characters of bytes of it. -/
theorem exists_bytes_of_class {p : Char → Bool} {q : UInt8 → Bool} (hpq : ∀ b, p (charOfByte b) = q b)
    (hp : ∀ c, p c = true → isWordChar c = true) {chars : List Char} (h : ∀ c ∈ chars, p c) :
    ∃ bytes : List UInt8, chars = bytes.map charOfByte ∧ encode chars = bytes ∧ ∀ b ∈ bytes, q b := by
  obtain ⟨bytes, rfl, ha⟩ := exists_bytes fun c hc => toNat_lt_of_isWordChar (hp c (h c hc))
  exact ⟨bytes, rfl, encode_map_charOfByte ha, fun b hb => (hpq b).symm.trans (h _ (List.mem_map_of_mem hb))⟩

/-- The text of a symbol is the bytes of one. -/
theorem Symbol.exists_fits (s : Symbol) : ∃ first more, encode s.spelling.toList = first :: more ∧
    Fits (.symbol s) first more [] := by
  rcases ofChar_or_ofPair s with ⟨a, hs, ha, h⟩ | ⟨a, b, hs, hab, h⟩
  · obtain ⟨bytes, hbytes, hlt⟩ := exists_bytes (List.forall_mem_singleton.2 ha)
    obtain ⟨first, rfl, rfl⟩ := List.map_eq_singleton_iff.1 hbytes.symm
    exact ⟨first, [], by rw [hs, hbytes, encode_map_charOfByte hlt], .single h fun _ => nofun⟩
  · obtain ⟨bytes, hbytes, hlt⟩ := exists_bytes (List.forall_mem_cons.2 ⟨hab.1, List.forall_mem_singleton.2 hab.2⟩)
    obtain ⟨first, tail, rfl, rfl, htail⟩ := List.map_eq_cons_iff.1 hbytes.symm
    obtain ⟨second, rfl, rfl⟩ := List.map_eq_singleton_iff.1 htail
    exact ⟨first, [second], by rw [hs, hbytes, encode_map_charOfByte hlt], .pair h⟩

/-- The text of a token is the bytes of one, with nothing behind them. -/
theorem Lexeme.exists_fits {kind : TokenKind} {lexeme : List Char} (h : Lexeme lexeme kind) :
    ∃ first more, encode lexeme = first :: more ∧ Fits kind first more [] := by
  have digits := @exists_bytes_of_class Char.isDigit isDigitByte isDigit_charOfByte fun _ => isWordChar_of_isDigit
  cases h with
  | @word c rest hf hr =>
    have hall : ∀ c' ∈ c :: rest, isWordChar c' := List.forall_mem_cons.2 ⟨isWordChar_of_isWordStartChar hf, hr⟩
    obtain ⟨bytes, hc, hb, hw⟩ := exists_bytes_of_class isWordChar_charOfByte (fun _ => id) hall
    obtain ⟨first, more, rfl, rfl, rfl⟩ := List.map_eq_cons_iff.1 hc.symm
    rw [isWordStartChar_charOfByte] at hf
    exact ⟨first, more, hb, .word hf (List.forall_mem_cons.1 hw).2 .nil⟩
  | integer h hne hd =>
    obtain ⟨bytes, rfl, hb, hd⟩ := digits hd
    cases bytes with
    | nil => exact absurd rfl hne
    | cons first more =>
      obtain ⟨hf, hm⟩ := List.forall_mem_cons.1 hd
      exact ⟨first, more, hb, .integer h hf hm .nil fun _ => nofun⟩
  | @fraction whole places hne hd hp hpd =>
    obtain ⟨wholeBytes, rfl, hwhole, hd⟩ := digits hd
    obtain ⟨placesBytes, rfl, hplaces, hpd⟩ := digits hpd
    cases wholeBytes with
    | nil => exact absurd rfl hne
    | cons first more =>
      cases placesBytes with
      | nil => exact absurd rfl hp
      | cons digit places =>
        obtain ⟨hf, hm⟩ := List.forall_mem_cons.1 hd
        obtain ⟨hd, hp⟩ := List.forall_mem_cons.1 hpd
        refine ⟨first, more ++ pointByte :: digit :: places, ?_, ?_⟩
        · have hpoint (chars : List Char) : encode ('.' :: chars) = pointByte :: encode chars :=
            encode_charOfByte_cons (b := pointByte) (by decide) chars
          rw [encode_append, hpoint, hwhole, hplaces]
          rfl
        · rw [← List.map_append, List.length_map]
          exact .fraction hf hm hd hp .nil
  | @string written value h =>
    refine ⟨quoteByte, encode written ++ [quoteByte], ?_, ?_⟩
    · rw [List.cons_append, quoteChar, encode_charOfByte_cons quoteByte_lt, encode_append,
        encode_charOfByte_cons quoteByte_lt, encode_nil]
    · rw [← lossyText_encode]
      exact .string h.bytes
  | symbol s => exact s.exists_fits

end RegisterCompiler
