/-!
# Hexadecimal text

Numbers and bytes in lower-case hexadecimal, as addresses, offsets and dumps show them. A number is padded with zeros to a
least width and never cut.
-/

namespace RegisterCompiler

/-- The lower-case hexadecimal digits of a number, with leading zeros up to the given width. -/
def hexPadded (width n : Nat) : String :=
  String.ofList (List.leftpad width '0' (Nat.toDigits 16 n))

/-- A byte as exactly two hexadecimal digits. -/
def hexByte (b : UInt8) : String := hexPadded 2 b.toNat

/-- Bytes as hexadecimal digits without separators. -/
def hexBytes (bytes : List UInt8) : String := String.join (bytes.map hexByte)

/-- A code offset, at least four digits wide. -/
def hexOffset (n : Nat) : String := hexPadded 4 n

end RegisterCompiler
