/-!
# Lossy UTF-8

Decoding that never fails: each maximal part of the input that begins a character and cannot be finished, and each byte that
can begin none, becomes one replacement character, and decoding goes on with the next byte.
-/

namespace RegisterCompiler

/-- The character that stands for an undecodable part. -/
def replacement : Char := Char.ofNat 0xFFFD

/-- What the first byte of a longer character announces: how many bytes follow, and the bounds of the first of them. -/
def announced (first : UInt8) : Option (Nat × UInt8 × UInt8) :=
  if 0xC2 ≤ first ∧ first ≤ 0xDF then some (1, 0x80, 0xBF)
  else if first = 0xE0 then some (2, 0xA0, 0xBF)
  else if first = 0xED then some (2, 0x80, 0x9F)
  else if 0xE1 ≤ first ∧ first ≤ 0xEF then some (2, 0x80, 0xBF)
  else if first = 0xF0 then some (3, 0x90, 0xBF)
  else if 0xF1 ≤ first ∧ first ≤ 0xF3 then some (3, 0x80, 0xBF)
  else if first = 0xF4 then some (3, 0x80, 0x8F)
  else none

/-- A byte that continues a character. -/
def isContinuation (b : UInt8) : Bool := 0x80 ≤ b && b ≤ 0xBF

/-- The six bits a continuation byte adds to the number so far. -/
def addContinuation (n : Nat) (b : UInt8) : Nat := n * 64 + (b.toNat - 0x80)

/-- The characters of a byte sequence, undecodable parts replaced. -/
def decodeLossy : List UInt8 → List Char
  | [] => []
  | a :: rest =>
    if a < 0x80 then Char.ofNat a.toNat :: decodeLossy rest
    else match announced a with
      | none => replacement :: decodeLossy rest
      | some (more, low, high) =>
        match rest with
        | [] => [replacement]
        | b :: rest₁ =>
          if low ≤ b ∧ b ≤ high then
            if more = 1 then Char.ofNat (addContinuation (a.toNat - 0xC0) b) :: decodeLossy rest₁
            else match rest₁ with
              | [] => [replacement]
              | c :: rest₂ =>
                if isContinuation c then
                  if more = 2 then
                    Char.ofNat (addContinuation (addContinuation (a.toNat - 0xE0) b) c) :: decodeLossy rest₂
                  else match rest₂ with
                    | [] => [replacement]
                    | d :: rest₃ =>
                      if isContinuation d then
                        Char.ofNat (addContinuation (addContinuation (addContinuation (a.toNat - 0xF0) b) c) d)
                          :: decodeLossy rest₃
                      else replacement :: decodeLossy (d :: rest₃)
                else replacement :: decodeLossy (c :: rest₂)
          else replacement :: decodeLossy (b :: rest₁)

/-- The text of a byte sequence, undecodable parts replaced. -/
def lossyText (bytes : List UInt8) : String := String.ofList (decodeLossy bytes)

/-- Bytes below 0x80, one character each. -/
def asciiText (bytes : List UInt8) : String := String.ofList (bytes.map fun b => Char.ofNat b.toNat)

end RegisterCompiler
