import RegisterCompiler.Source.Reader

/-!
# Reading tokens from a device

A `DeviceLexer` hands out the tokens of what a device delivers and reads no further ahead than its window does. It decides on a
token by looking at the next two bytes and takes the bytes of the token out one by one. A device may go on for ever, and a token
or a comment with it: then a `loop` comes to no end, and nothing is known of its result. Its equation (`loop_eq`) holds all the
same.
-/

namespace RegisterCompiler

/-- Takes one step after another, up to one that gives a result. -/
def loop {α β : Type} [Nonempty β] (step : α → α ⊕ β) (start : α) : β := Id.run (repeatM (fun a => pure (step a)) start)

/-- A loop takes one step, and then goes on or has its result. -/
theorem loop_eq {α β : Type} [Nonempty β] (step : α → α ⊕ β) (start : α) : loop step start =
    match step start with
    | .inl next => loop step next
    | .inr result => result := by
  rw [loop, repeatM_eq_of_monadTail]
  unfold repeatM.body
  cases h : step start <;> simp [h, loop]

namespace Window

variable {device : Device}

instance : Nonempty (Window device) := ⟨blank device⟩

/-- Passes the rest of a line. -/
def skipLine : Window device → Window device :=
  loop fun w =>
    match w.peek 0 with
    | none => .inr w
    | some b => if b = lineFeed then .inr w else .inl w.pass

/-- A comment is passed byte by byte up to its line feed. -/
theorem skipLine_eq (w : Window device) : w.skipLine =
    match w.peek 0 with
    | none => w
    | some b => if b = lineFeed then w else w.pass.skipLine := by
  rw [skipLine, loop_eq]
  cases w.peek 0 with
  | none => rfl
  | some b =>
    by_cases h : b = lineFeed
    · simp only [if_pos h]
    · simp only [if_neg h]

/-- Passes blanks and comments. -/
def skipGap : Window device → Window device :=
  loop fun w =>
    match w.peek 0 with
    | none => .inr w
    | some b =>
      if isBlank b then .inl w.pass
      else if b = slashByte ∧ w.peek 1 = some slashByte then .inl w.skipLine
      else .inr w

/-- A gap is passed blank by blank and comment by comment. -/
theorem skipGap_eq (w : Window device) : w.skipGap =
    match w.peek 0 with
    | none => w
    | some b =>
      if isBlank b then w.pass.skipGap
      else if b = slashByte ∧ w.peek 1 = some slashByte then w.skipLine.skipGap
      else w := by
  rw [skipGap, loop_eq]
  cases w.peek 0 with
  | none => rfl
  | some b =>
    by_cases hblank : isBlank b
    · simp only [if_pos hblank]
    · by_cases hslash : b = slashByte ∧ w.peek 1 = some slashByte
      · simp only [if_neg hblank, if_pos hslash]
      · simp only [if_neg hblank, if_neg hslash]

/-- Takes out the next byte if it is of a kind, and puts it behind those taken before. -/
def takeByte (p : UInt8 → Bool) :
    List UInt8 × Window device → (List UInt8 × Window device) ⊕ (List UInt8 × Window device)
  | (taken, w) =>
    match w.peek 0 with
    | none => .inr (taken, w)
    | some b => if p b then .inl (taken ++ [b], w.pass) else .inr (taken, w)

/-- Takes out the next bytes of a kind. -/
def takeBytes (p : UInt8 → Bool) (w : Window device) : List UInt8 × Window device := loop (takeByte p) ([], w)

/-- A token from a position up to a window, and the window. -/
def token (w : Window device) (start : Position) (kind : TokenKind) (lexeme : String) : Token × Window device :=
  (⟨kind, ⟨start, w.position⟩, lexeme⟩, w)

instance : Nonempty (Token × Window device) := ⟨(blank device).token .origin .endOfInput ""⟩

/-- Reads a word. -/
def word (w : Window device) : Token × Window device :=
  let (written, w') := w.takeBytes isWordByte
  let text := asciiText written
  w'.token w.position ((TokenKind.ofWord? text).getD (.identifier text)) text

/-- Reads a number. A point belongs to it if a digit follows the point. -/
def number (w : Window device) : Token × Window device :=
  let (whole, w') := w.takeBytes isDigitByte
  if w'.peek 0 = some pointByte ∧ (w'.peek 1).any isDigitByte then
    let (places, w'') := w'.pass.takeBytes isDigitByte
    let value := Binary64.nearest (digitsValue (whole ++ places)) (Nat.pow 10 places.length)
    w''.token w.position (.float value) (asciiText (whole ++ pointByte :: places))
  else w'.token w.position (Scan.integerKind whole) (asciiText whole)

/-- Where the reading of a string stands: its value and the bytes it is written with so far, and the window behind them. -/
structure StringRead (device : Device) where
  value : List UInt8
  written : List UInt8
  window : Window device

/-- Reads on in a string that was opened at a position: by a byte or an escape, or to the end of the string or its first fault. -/
def StringRead.step (opened : Position) (s : StringRead device) : StringRead device ⊕ Token × Window device :=
  match s.window.advance with
  | (none, w) => .inr (w.token opened (.malformed (.unterminated opened)) (lossyText s.written))
  | (some b, w) =>
    if b = quoteByte then .inr (w.token opened (.text (lossyText s.value)) (lossyText (s.written ++ [b])))
    else if b = backslashByte then
      match w.advance with
      | (none, w') => .inr (w'.token s.window.position (.malformed .endInEscape) (lossyText (s.written ++ [b])))
      | (some code, w') =>
        match escapedByte? code with
        | some escaped => .inl ⟨s.value ++ [escaped], s.written ++ [b, code], w'⟩
        | none => .inr (w'.token s.window.position (.malformed (.invalidEscape code)) (lossyText (s.written ++ [b, code])))
    else .inl ⟨s.value ++ [b], s.written ++ [b], w⟩

/-- Reads a string. -/
def string (w : Window device) : Token × Window device := loop (StringRead.step w.position) ⟨[], [quoteByte], w.pass⟩

/-- Reads a symbol, the longer one where two bytes make one. Any other byte is unrecognized. -/
def symbol (w : Window device) : Token × Window device :=
  match w.advance with
  | (none, w') => w'.token w.position .endOfInput ""
  | (some first, w') =>
    match (w'.peek 0).bind fun second => Symbol.ofPair? (charOfByte first) (charOfByte second) with
    | some s =>
      let (second, w'') := w'.advance
      w''.token w.position (.symbol s) (asciiText [first, second.getD 0])
    | none =>
      match Symbol.ofChar? (charOfByte first) with
      | some s => w'.token w.position (.symbol s) (escapeByte first)
      | none => w'.token w.position (.malformed .unrecognized) (escapeByte first)

/-- Reads the token that begins with the next byte. -/
def scan (w : Window device) (first : UInt8) : Token × Window device :=
  if isWordStart first then w.word
  else if isDigitByte first then w.number
  else if first = quoteByte then w.string
  else w.symbol

end Window

/-- A lexer on a device: the window it reads through, and whether it has handed out the end of the input. -/
structure DeviceLexer (device : Device) where
  window : Window device
  finished : Bool

namespace DeviceLexer

variable {device : Device}

/-- The lexer at the start of a device. -/
def ofDevice (device : Device) : DeviceLexer device := ⟨.ofDevice device, false⟩

/-- The next token and the lexer behind it; nothing behind the end of the input. -/
def next (l : DeviceLexer device) : Option (Token × DeviceLexer device) :=
  if l.finished then none
  else
    let w := l.window.skipGap
    match w.peek 0 with
    | none => some (⟨.endOfInput, .point w.position, ""⟩, ⟨w, true⟩)
    | some first =>
      let (t, w') := w.scan first
      some (t, ⟨w', false⟩)

/-- Puts the next token behind those that were handed out before. -/
def handOut : List Token × DeviceLexer device → (List Token × DeviceLexer device) ⊕ List Token
  | (handed, l) =>
    match l.next with
    | none => .inr handed
    | some (t, l') => .inl (handed ++ [t], l')

/-- The tokens a lexer still hands out. -/
def tokens (l : DeviceLexer device) : List Token := loop handOut ([], l)

end DeviceLexer

end RegisterCompiler
