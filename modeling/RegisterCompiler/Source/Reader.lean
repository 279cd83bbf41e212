import RegisterCompiler.Source.Lexer

/-!
# Reading bytes from a device

A device answers each read with a byte, the end of its data, or a failure. A `Window` of a device reads ahead up to two bytes, the
most that deciding on a token needs, into a buffer of which only the front is in use. It reads when it is opened and whenever a
byte is taken out, until it is full, and takes the first answer that is no byte for the end of the input: it asks no more after
that, whatever the device would have answered.
-/

namespace RegisterCompiler

/-- What a device answers when one byte is read. -/
inductive Answer where
  | byte (b : UInt8)
  | ended
  | failed
  deriving DecidableEq, Repr

namespace Answer

/-- The byte of an answer. -/
def byte? : Answer → Option UInt8
  | byte b => some b
  | _ => none

/-- The bytes that a device delivers before its first end or failure. -/
def delivered : List Answer → List UInt8
  | byte b :: more => b :: delivered more
  | _ => []

/-- A device that delivers the given bytes and then fails. -/
def failingAfter (bytes : List UInt8) : List Answer := bytes.map byte ++ [failed]

end Answer

/-- A device, by its answers to one read after another, counted from zero. Behind an end or a failure it may deliver again. -/
structure Device where
  answer : Nat → Answer

/-- The device that gives some answers, and behind them has ended for good. -/
def Device.ofAnswers (answers : List Answer) : Device := ⟨fun n => answers.getD n .ended⟩

/-- The number of bytes read ahead. -/
abbrev Window.width : Nat := 2

/-- A device seen through its next bytes: a buffer and how much of it is in use, whether the device has ended, how often it was
read, and where the next byte stands. Behind the bytes in use the buffer holds what is left of earlier ones. -/
structure Window (device : Device) where
  buffer : Vector UInt8 Window.width
  used : Nat
  used_le : used ≤ Window.width
  ended : Bool
  reads : Nat
  position : Position

namespace Window

variable {device : Device}

/-- The window with one more byte read. -/
def store (w : Window device) (b : UInt8) (h : w.used < width) : Window device :=
  { w with buffer := w.buffer.set w.used b, used := w.used + 1, used_le := h, reads := w.reads + 1 }

/-- The window with one more read that gave no byte. -/
def close (w : Window device) : Window device := { w with ended := true, reads := w.reads + 1 }

/-- Reads until the window is full or the device has ended. -/
def fill (w : Window device) : Window device :=
  if h : w.ended = false ∧ w.used < width then
    match device.answer w.reads with
    | .byte b => (w.store b h.2).fill
    | _ => w.close
  else w
termination_by width - w.used
decreasing_by exact Nat.sub_succ_lt_self _ _ h.2

/-- A window that has not read yet. -/
def blank (device : Device) : Window device := ⟨Vector.replicate width 0, 0, Nat.zero_le _, false, 0, .origin⟩

/-- The window at the start of a device. -/
def ofDevice (device : Device) : Window device := (blank device).fill

/-- The byte at a distance ahead. -/
def peek (w : Window device) (distance : Nat) : Option UInt8 :=
  if h : distance < w.used then some (w.buffer.get ⟨distance, Nat.lt_of_lt_of_le h w.used_le⟩) else none

/-- The window without its first byte: the others in use move to the front, and behind them the buffer stays as it is. -/
def shift (w : Window device) : Window device :=
  { w with
    buffer := Vector.ofFn fun i =>
      if h : i.val + 1 < w.used then w.buffer.get ⟨i.val + 1, Nat.lt_of_lt_of_le h w.used_le⟩ else w.buffer.get i
    used := w.used - 1
    used_le := Nat.le_trans (Nat.sub_le _ _) w.used_le }

/-- The window behind its first byte, which is given: it reads ahead again. -/
def behind (w : Window device) (b : UInt8) : Window device := { w.shift.fill with position := w.position.step b }

/-- Takes the next byte, if there is one. -/
def advance (w : Window device) : Option UInt8 × Window device :=
  match w.peek 0 with
  | none => (none, w)
  | some b => (some b, w.behind b)

/-- Passes the next byte. -/
def pass (w : Window device) : Window device := w.advance.2

end Window

/-- The lexer on what a device delivers. -/
def Lexer.ofAnswers (answers : List Answer) : Lexer := Lexer.ofBytes (Answer.delivered answers)

end RegisterCompiler
