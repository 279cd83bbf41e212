import Mathlib
import RegisterCompiler.Proofs.Lexing.Progress
import RegisterCompiler.Proofs.Reading.Cursor
import RegisterCompiler.Source.DeviceLexer

/-!
# Tokens from a device

A window before the last bytes that its device delivers (`Window.Stands`) answers with these, whatever the device would answer
behind them. Reading tokens through it follows the scans of the bytes step by step: each reader hands out the token of its scan
and leaves the window before the rest of it (`Window.Yields`). So a lexer on a device hands out the tokens of the bytes that the
device delivers (`DeviceLexer.Follows.tokens`), and a window refines a cursor on these bytes (`Window.refines_cursor`).
-/

namespace RegisterCompiler

/-! ## Comments and strings -/

/-- A byte inside a line. -/
def isLineByte (b : UInt8) : Bool := b != lineFeed

/-- A comment is skipped up to the end of its line, and the gap goes on there. -/
theorem splitGap_comment (bytes : List UInt8) : splitGap true bytes =
    (splitGap false (bytes.dropWhile isLineByte)).map (bytes.takeWhile isLineByte ++ ·) id := by
  induction bytes with
  | nil => rfl
  | cons b bytes ih =>
    by_cases hb : b = lineFeed
    · subst hb
      rw [splitGap_comment_lineFeed]
      exact (splitGap_blank (by decide) bytes).symm
    · have hline : isLineByte b := bne_iff_ne.2 hb
      rw [splitGap, List.dropWhile_cons_of_pos hline, List.takeWhile_cons_of_pos hline]
      simp only [if_true, bne_iff_ne.2 hb, ih]
      rfl

/-- Two slashes begin a gap as the line does that they stand in. -/
theorem splitGap_slashes (rest : List UInt8) :
    splitGap false (slashByte :: slashByte :: rest) = splitGap true (slashByte :: slashByte :: rest) := by
  rw [splitGap_slash, splitGap]
  rfl

namespace Scan

/-- Where a scan that begins at a position ends. -/
def stop (s : Scan) (p : Position) : Position := (p.advance s.skipped).advance s.spanned

/-- The token of a scan that begins at a position. -/
def token (s : Scan) (p : Position) : Token := ⟨s.kind, ⟨p.advance s.skipped, s.stop p⟩, s.lexeme⟩

/-- The scan of a string opened at a position, by how the body ends behind a value and the bytes it is written with. -/
def body (opened : Position) (value written : List UInt8) : StringBody → Scan
  | .closed v source rest =>
    ⟨.text (lossyText (value ++ v)), [], written ++ source ++ [quoteByte], lossyText (written ++ source ++ [quoteByte]), rest⟩
  | .invalidEscape source code rest =>
    ⟨.malformed (.invalidEscape code), written ++ source, [backslashByte, code],
      lossyText (written ++ source ++ [backslashByte, code]), rest⟩
  | .endInEscape source =>
    ⟨.malformed .endInEscape, written ++ source, [backslashByte], lossyText (written ++ source ++ [backslashByte]), []⟩
  | .unterminated source =>
    ⟨.malformed (.unterminated opened), [], written ++ source, lossyText (written ++ source), []⟩

/-- A string is its body behind the quote that opens it. -/
theorem string_eq_body (start : Position) (quote : UInt8) (bytes : List UInt8) :
    string start quote bytes = body start [] [quote] (StringBody.scan bytes) := by
  unfold string
  cases StringBody.scan bytes <;> rfl

/-- One more byte in front of a body belongs to the value and the text before it. -/
theorem body_cons (opened : Position) (value written more : List UInt8) (v : UInt8) (b : StringBody) :
    body opened value written (b.cons v more) = body opened (value ++ [v]) (written ++ more) b := by
  cases b <;> simp [body, StringBody.cons]

end Scan

namespace Window

variable {device : Device} {w : Window device} {p : Position} {bytes : List UInt8} {b : UInt8}

/-! ## Before the last bytes -/

/-- A window at a position before some bytes, which are the last that its device delivers. -/
def Stands (p : Position) (bytes : List UInt8) (w : Window device) : Prop :=
  w.position = p ∧ ∃ taken, Behind taken w ∧ device.Delivers (taken ++ bytes)

/-- A new window stands before all bytes of its device. -/
theorem stands_ofDevice (h : device.Delivers bytes) : Stands .origin bytes (ofDevice device) :=
  ⟨(behind_ofDevice device).position, [], behind_ofDevice device, h⟩

/-- A window shows the bytes that it stands before, as far as it is wide. -/
theorem Stands.peek (h : Stands p bytes w) {distance : Nat} (hd : distance < width) : w.peek distance = bytes[distance]? := by
  obtain ⟨-, taken, hbehind, hdelivers⟩ := h
  rw [hbehind.peek_eq_byte? hd, hdelivers.byte?_eq, List.getElem?_append_right (Nat.le_add_right _ _),
    Nat.add_sub_cancel_left]

/-- Before no bytes a window shows none. -/
theorem Stands.peek_nil (h : Stands p [] w) : w.peek 0 = none := h.peek (by decide)

/-- A window shows the first byte that it stands before. -/
theorem Stands.peek_cons (h : Stands p (b :: bytes) w) : w.peek 0 = some b := h.peek (by decide)

/-- Before no bytes advancing changes nothing. -/
theorem Stands.advance_nil (h : Stands p [] w) : w.advance = (none, w) := advance_of_peek_eq_none h.peek_nil

/-- Advancing gives the first byte and passes it. -/
theorem Stands.advance_cons (h : Stands p (b :: bytes) w) : w.advance = (some b, w.pass) := by
  rw [pass, advance, h.peek_cons]

/-- Behind the first byte a window stands before the rest, one position further. -/
theorem Stands.pass (h : Stands p (b :: bytes) w) : Stands (p.step b) bytes w.pass := by
  have hb := h.peek_cons
  obtain ⟨rfl, taken, hbehind, hdelivers⟩ := h
  obtain ⟨hadvance, hmore⟩ := hbehind.advance_of_peek hb
  rw [Window.pass, hadvance]
  refine ⟨rfl, taken ++ [b], hmore, ?_⟩
  rwa [List.append_assoc]

/-! ## Passing bytes of a kind -/

/-- Skipping a line ends before its line feed. -/
theorem Stands.skipLine (h : Stands p bytes w) :
    Stands (p.advance (bytes.takeWhile isLineByte)) (bytes.dropWhile isLineByte) w.skipLine := by
  induction bytes generalizing p w with
  | nil =>
    rw [skipLine_eq, h.peek_nil]
    exact h
  | cons b bytes ih =>
    rw [skipLine_eq, h.peek_cons]
    by_cases hb : b = lineFeed
    · subst hb
      exact h
    · have hline : isLineByte b := bne_iff_ne.2 hb
      simp only [if_neg hb]
      rw [List.takeWhile_cons_of_pos hline, List.dropWhile_cons_of_pos hline]
      exact ih h.pass

/-- A gap is skipped as it is split off. -/
theorem Stands.skipGap (h : Stands p bytes w) :
    Stands (p.advance (splitGap false bytes).1) (splitGap false bytes).2 w.skipGap := by
  induction hn : bytes.length using Nat.strong_induction_on generalizing bytes p w with
  | _ n ih =>
    subst hn
    cases bytes with
    | nil =>
      rw [skipGap_eq, h.peek_nil]
      exact h
    | cons b bytes =>
      have hsecond : w.peek 1 = bytes.head? := by
        rw [h.peek (by decide), List.head?_eq_getElem?]
        rfl
      rw [skipGap_eq, h.peek_cons]
      simp only [hsecond]
      by_cases hblank : isBlank b
      · rw [splitGap_blank hblank, if_pos hblank]
        exact ih _ (Nat.lt_succ_self _) h.pass rfl
      · rw [if_neg hblank]
        by_cases hslash : b = slashByte ∧ bytes.head? = some slashByte
        · obtain ⟨rfl, hhead⟩ := hslash
          obtain ⟨more, rfl⟩ : ∃ more, bytes = slashByte :: more := List.head?_eq_some_iff.1 hhead
          -- The slashes are bytes of the line that is passed, so less is left behind it.
          have hshorter : ((slashByte :: slashByte :: more).dropWhile isLineByte).length <
              (slashByte :: slashByte :: more).length := by
            rw [List.dropWhile_cons_of_pos (by decide)]
            exact Nat.lt_succ_of_le (List.dropWhile_suffix _).length_le
          have hgap := ih _ hshorter h.skipLine rfl
          rw [if_pos ⟨rfl, hhead⟩, splitGap_slashes, splitGap_comment, Prod.map_fst, Prod.map_snd, Position.advance_append]
          exact hgap
        · rw [if_neg hslash, splitGap_eq_nil (Bool.eq_false_iff.2 hblank) hslash]
          exact h

/-- Taking out bytes of a kind goes on behind those taken before. -/
theorem Stands.loop_takeByte (h : Stands p bytes w) (q : UInt8 → Bool) (taken : List UInt8) :
    ∃ w', loop (takeByte q) (taken, w) = (taken ++ bytes.takeWhile q, w') ∧
      Stands (p.advance (bytes.takeWhile q)) (bytes.dropWhile q) w' := by
  induction bytes generalizing p w taken with
  | nil =>
    refine ⟨w, ?_, h⟩
    rw [loop_eq, takeByte, h.peek_nil, List.takeWhile_nil, List.append_nil]
  | cons b bytes ih =>
    rw [loop_eq, takeByte, h.peek_cons]
    by_cases hb : q b
    · obtain ⟨w', hread, hstands⟩ := ih h.pass (taken ++ [b])
      simp only [if_pos hb]
      rw [List.takeWhile_cons_of_pos hb, List.dropWhile_cons_of_pos hb, hread, List.append_assoc]
      exact ⟨w', rfl, hstands⟩
    · simp only [if_neg hb]
      rw [List.takeWhile_cons_of_neg hb, List.dropWhile_cons_of_neg hb, List.append_nil]
      exact ⟨w, rfl, h⟩

/-- Taking bytes of a kind takes all that stand in front, and stops before the first other one. -/
theorem Stands.takeBytes (h : Stands p bytes w) (q : UInt8 → Bool) :
    ∃ w', w.takeBytes q = (bytes.takeWhile q, w') ∧
      Stands (p.advance (bytes.takeWhile q)) (bytes.dropWhile q) w' := h.loop_takeByte q []

/-- Taking bytes of a kind takes the first one with them if it is of the kind. -/
theorem Stands.takeBytes_cons (h : Stands p (b :: bytes) w) {q : UInt8 → Bool} (hb : q b) :
    ∃ w', w.takeBytes q = (b :: bytes.takeWhile q, w') ∧
      Stands (p.advance (b :: bytes.takeWhile q)) (bytes.dropWhile q) w' := by
  have htake := h.takeBytes q
  rwa [List.takeWhile_cons_of_pos hb, List.dropWhile_cons_of_pos hb] at htake

/-! ## Tokens -/

/-- What is read is the token of a scan that begins at a position, and the window before the rest of the scan. -/
def Yields (p : Position) (s : Scan) (read : Token × Window device) : Prop :=
  read.1 = s.token p ∧ Stands (s.stop p) s.rest read.2

/-- A window that stands where a scan ends yields its token. -/
theorem Stands.yields {s : Scan} (h : Stands (s.stop p) s.rest w) :
    Yields p s (w.token (p.advance s.skipped) s.kind s.lexeme) := by
  refine ⟨?_, h⟩
  rw [token, h.1]
  rfl

/-- A scan that passes nothing before its token. -/
theorem Stands.yields_spanned {kind : TokenKind} {spanned : List UInt8} {lexeme : String}
    (h : Stands (p.advance spanned) bytes w) :
    Yields p ⟨kind, [], spanned, lexeme, bytes⟩ (w.token p kind lexeme) :=
  Stands.yields (s := ⟨kind, [], spanned, lexeme, bytes⟩) h

theorem Stands.word (h : Stands p (b :: bytes) w) (hb : isWordStart b) : Yields p (Scan.word b bytes) w.word := by
  have hword : isWordByte b := by rw [isWordByte, hb, Bool.true_or]
  obtain ⟨w', hread, hstands⟩ := h.takeBytes_cons hword
  rw [Window.word, hread, h.1]
  exact hstands.yields_spanned

theorem Stands.number (h : Stands p (b :: bytes) w) (hb : isDigitByte b) : Yields p (Scan.number b bytes) w.number := by
  obtain ⟨w', hread, hstands⟩ := h.takeBytes_cons hb
  rw [Window.number, hread, h.1]
  unfold Scan.number
  generalize bytes.takeWhile isDigitByte = digits at hstands ⊢
  generalize bytes.dropWhile isDigitByte = rest at hstands ⊢
  have hfirst : w'.peek 0 = rest[0]? := hstands.peek (by decide)
  have hsecond : w'.peek 1 = rest[1]? := hstands.peek (by decide)
  simp only [hfirst, hsecond]
  split
  · rename_i point digit rest
    have hpoint : ((point :: digit :: rest)[0]? = some pointByte ∧ (point :: digit :: rest)[1]?.any isDigitByte) ↔
        (point = pointByte ∧ isDigitByte digit) := by simp
    simp only [hpoint]
    split
    · rename_i hfraction
      obtain ⟨rfl, hdigit⟩ := hfraction
      obtain ⟨w'', hplaces, hbehind⟩ := hstands.pass.takeBytes_cons hdigit
      rw [hplaces]
      refine Stands.yields_spanned ?_
      rw [Position.advance_append]
      exact hbehind
    · exact hstands.yields_spanned
  · rename_i hshort
    -- Less than two bytes are left, so no digit follows a point.
    have hone : rest[1]? = none := by
      match rest, hshort with
      | [], _ => rfl
      | [_], _ => rfl
      | point :: digit :: more, hshort => exact (hshort point digit more rfl).elim
    rw [if_neg (by simp [hone])]
    exact hstands.yields_spanned

/-- Behind what was read of a string, the rest of it is read as its body. -/
theorem Stands.loop_string {opened : Position} {written : List UInt8} (h : Stands (opened.advance written) bytes w)
    (value : List UInt8) : Yields opened (Scan.body opened value written (StringBody.scan bytes))
      (loop (StringRead.step opened) ⟨value, written, w⟩) := by
  fun_induction StringBody.scan bytes generalizing w value written with
  | case1 =>
    rw [loop_eq, StringRead.step, h.advance_nil]
    simp only [Scan.body, List.append_nil]
    exact h.yields_spanned
  | case2 rest =>
    rw [loop_eq, StringRead.step, h.advance_cons]
    simp only [if_true, Scan.body, List.append_nil]
    refine Stands.yields_spanned ?_
    rw [Position.advance_append]
    exact h.pass
  | case3 hne =>
    rw [loop_eq, StringRead.step, h.advance_cons]
    simp only [if_neg hne, if_true, h.pass.advance_nil, Scan.body, List.append_nil, h.1]
    exact Stands.yields (s := ⟨_, _, _, _, _⟩) h.pass
  | case4 code rest escaped hcode hne ih =>
    rw [loop_eq, StringRead.step, h.advance_cons]
    simp only [if_neg hne, if_true, h.pass.advance_cons, hcode, Scan.body_cons]
    refine ih ?_ _
    rw [Position.advance_append]
    exact h.pass.pass
  | case5 code rest hcode hne =>
    rw [loop_eq, StringRead.step, h.advance_cons]
    simp only [if_neg hne, if_true, h.pass.advance_cons, hcode, Scan.body, List.append_nil, h.1]
    exact Stands.yields (s := ⟨_, _, _, _, _⟩) h.pass.pass
  | case6 b rest hquote hslash ih =>
    rw [loop_eq, StringRead.step, h.advance_cons]
    simp only [if_neg hquote, if_neg hslash, Scan.body_cons]
    refine ih ?_ _
    rw [Position.advance_append]
    exact h.pass

/-- A string is read as from the bytes. -/
theorem Stands.string (h : Stands p (quoteByte :: bytes) w) : Yields p (Scan.string p quoteByte bytes) w.string := by
  have hopened : Stands (p.advance [quoteByte]) bytes w.pass := h.pass
  rw [Scan.string_eq_body, Window.string, h.1]
  exact hopened.loop_string []

/-- A symbol of one character is read as from the bytes. -/
theorem Stands.single (h : Stands p (b :: bytes) w) : Yields p (Scan.single b bytes)
    (match Symbol.ofChar? (charOfByte b) with
      | some s => w.pass.token p (.symbol s) (escapeByte b)
      | none => w.pass.token p (.malformed .unrecognized) (escapeByte b)) := by
  unfold Scan.single
  cases Symbol.ofChar? (charOfByte b) <;> exact Stands.yields_spanned h.pass

theorem Stands.symbol (h : Stands p (b :: bytes) w) : Yields p (Scan.symbol b bytes) w.symbol := by
  have hsecond : w.pass.peek 0 = bytes[0]? := h.pass.peek (by decide)
  rw [Window.symbol, h.advance_cons, h.1, Scan.symbol.eq_def]
  simp only [hsecond]
  cases bytes with
  | nil => exact h.single
  | cons second rest =>
    simp only [List.getElem?_cons_zero, Option.bind_some]
    cases Symbol.ofPair? (charOfByte b) (charOfByte second) with
    | none => exact h.single
    | some s =>
      simp only [h.pass.advance_cons]
      exact Stands.yields_spanned h.pass.pass

/-- Any token is read as from the bytes. -/
theorem Stands.scan (h : Stands p (b :: bytes) w) : Yields p (Scan.scan p b bytes) (w.scan b) := by
  unfold Window.scan Scan.scan
  split
  · exact h.word ‹_›
  · split
    · exact h.number ‹_›
    · split
      · rename_i hquote
        subst hquote
        exact h.string
      · exact h.symbol

end Window

namespace DeviceLexer

variable {device : Device}

/-- A lexer on a device goes on as a lexer on bytes does. -/
structure Follows (l : DeviceLexer device) (m : Lexer) : Prop where
  stands : l.window.Stands m.position m.bytes
  finished : l.finished = m.finished

variable {l : DeviceLexer device} {m : Lexer}

/-- A new lexer on a device follows the lexer on the bytes that it delivers. -/
theorem follows_ofDevice {bytes : List UInt8} (h : device.Delivers bytes) :
    Follows (ofDevice device) (Lexer.ofBytes bytes) := ⟨Window.stands_ofDevice h, rfl⟩

/-- Either both lexers are finished, or both hand out the same token and the one goes on as the other does. -/
theorem Follows.next (h : Follows l m) : (m.next = none ∧ l.next = none) ∨
    ∃ t m' l', m.next = some (t, m') ∧ l.next = some (t, l') ∧ Follows l' m' := by
  unfold DeviceLexer.next Lexer.next
  rw [h.finished]
  by_cases hfinished : m.finished
  · exact .inl ⟨if_pos hfinished, if_pos hfinished⟩
  · refine .inr ?_
    simp only [if_neg hfinished]
    have hstands := h.stands.skipGap
    generalize m.position.advance (splitGap false m.bytes).1 = here at hstands ⊢
    cases hrest : (splitGap false m.bytes).2 with
    | nil =>
      rw [hrest] at hstands
      simp only [hstands.peek_nil, hstands.1]
      exact ⟨_, _, _, rfl, rfl, hstands, rfl⟩
    | cons first bytes =>
      rw [hrest] at hstands
      obtain ⟨htoken, hbehind⟩ := hstands.scan
      simp only [hstands.peek_cons, htoken]
      exact ⟨_, _, _, rfl, rfl, hbehind, rfl⟩

/-- The tokens that are handed out behind others are those of the lexer that is followed. -/
theorem Follows.loop_handOut (h : Follows l m) (handed : List Token) : loop handOut (handed, l) = handed ++ m.tokens := by
  induction hn : m.size using Nat.strong_induction_on generalizing l m handed with
  | _ n ih =>
    subst hn
    obtain ⟨hended, hnext⟩ | ⟨t, m', l', hm, hl, hfollows⟩ := h.next
    · rw [loop_eq, handOut, hnext, Lexer.tokens_of_next_eq_none hended, List.append_nil]
    · rw [loop_eq, handOut, hl, Lexer.tokens_of_next hm]
      simp only [ih _ (Lexer.size_lt_of_next hm) hfollows _ rfl, List.append_assoc, List.singleton_append]

/-- Lexers that follow each other give the same tokens. -/
theorem Follows.tokens (h : Follows l m) : l.tokens = m.tokens := h.loop_handOut []

/-- The tokens from given answers, whatever follows the first end or failure among them. -/
theorem tokens_ofAnswers (answers : List Answer) :
    (ofDevice (.ofAnswers answers)).tokens = (Lexer.ofAnswers answers).tokens :=
  (follows_ofDevice (Device.delivers_ofAnswers answers)).tokens

end DeviceLexer

/-! ## A window refines a cursor -/

namespace Window

/-- What some calls on a new window are answered, and the window behind them. -/
def asked (device : Device) (calls : List Call) : List (Option UInt8) × Window device :=
  Call.run Window.call (ofDevice device) calls

/-- The bytes that some calls on a new window take out. -/
def takenBy (device : Device) (calls : List Call) : List UInt8 := Call.outs calls (asked device calls).1

/-- A window does what a plain cursor does on the bytes that its device delivers before its first end or failure. -/
structure Refines (device : Device) : Prop where
  /-- Any calls are answered as by the cursor. -/
  answers (calls : List Call) : (asked device calls).1 = (Call.run device.cursor 0 calls).1
  /-- The bytes taken out are the first that the device delivers, each once and in their order. -/
  taken (calls : List Call) : device.Begins (takenBy device calls)
  /-- The position is where the bytes taken out end. -/
  position (calls : List Call) : (asked device calls).2.position = Position.origin.advance (takenBy device calls)
  /-- No second byte is seen only if fewer than two remain. -/
  short (calls : List Call) : (asked device calls).2.peek 1 = none →
    device.byte? ((takenBy device calls).length + 1) = none
  /-- Only the last read may have come to an end or a failure. -/
  silent (calls : List Call) (n : Nat) : n + 1 < (asked device calls).2.reads → ∃ b, device.answer n = .byte b
  /-- The tokens are those of the bytes delivered, whatever the device answers behind its first end or failure. -/
  lexed (bytes : List UInt8) : device.Delivers bytes →
    (DeviceLexer.ofDevice device).tokens = (Lexer.ofBytes bytes).tokens

/-- Behind any calls, the window has answered as a plain cursor, and stands behind the bytes taken out. -/
theorem behind_asked (device : Device) (calls : List Call) :
    (asked device calls).1 = (Call.run device.cursor 0 calls).1 ∧
      Behind (takenBy device calls) (asked device calls).2 := by
  obtain ⟨answers, hanswers, hcursor, hbehind⟩ := (behind_ofDevice device).run calls
  rw [takenBy, asked, hanswers]
  exact ⟨(congrArg Prod.fst hcursor).symm, hbehind⟩

/-- **A window refines a cursor.** Whatever a device answers, calls on a window of it come to what they come to on the bytes that
the device delivers before its first end or failure, and so do the tokens read through it. -/
theorem refines_cursor (device : Device) : Refines device where
  answers calls := (behind_asked device calls).1
  taken calls := by
    have h := (behind_asked device calls).2.begins
    intro n b hb
    exact h n b (List.getElem?_append_left (List.getElem?_eq_some_iff.1 hb).1 ▸ hb)
  position calls := (behind_asked device calls).2.position
  short calls hnone := by
    have hpeek := (behind_asked device calls).2.peek_eq_byte? (show 1 < width by decide)
    exact hpeek.symm.trans hnone
  silent calls n hn := by
    have h := (behind_asked device calls).2
    have hreads := h.reads
    have hlast := Bool.toNat_le (asked device calls).2.ended
    exact h.begins.exists_byte (by omega)
  lexed bytes h := (DeviceLexer.follows_ofDevice h).tokens

end Window

end RegisterCompiler
