import RegisterCompiler.Text.Hex

/-!
# Escaped bytes

Bytes written in printable ASCII: tab, carriage return, newline, both quotes and the backslash as two-character escapes,
other printable bytes as they are, everything else as `\x` and two hexadecimal digits. Escaping works byte by byte.
-/

namespace RegisterCompiler

/-- The escaped text of one byte. -/
def escapeByte (b : UInt8) : String :=
  if b = 0x09 then "\\t"
  else if b = 0x0D then "\\r"
  else if b = 0x0A then "\\n"
  else if b = 0x27 then "\\'"
  else if b = 0x22 then "\\\""
  else if b = 0x5C then "\\\\"
  else if 0x20 ≤ b ∧ b ≤ 0x7E then String.singleton (Char.ofNat b.toNat)
  else "\\x" ++ hexByte b

/-- The escaped text of a sequence of bytes. -/
def escapeBytes : List UInt8 → String
  | [] => ""
  | b :: rest => escapeByte b ++ escapeBytes rest

/-- The bytes of a text in UTF-8. -/
def utf8Bytes (text : String) : List UInt8 := text.toUTF8.data.toList

/-- The escaped text of a string, byte by byte of its UTF-8 form. -/
def escapeText (text : String) : String := escapeBytes (utf8Bytes text)

end RegisterCompiler
