/-!
Words, and written numbers: hexadecimal words, and decimals of at least four places.
-/
namespace StackFlow

/-- A machine word, of code or of data. -/
abbrev Word := UInt64

/-- Size of a pointer in bytes; a word has the same. -/
def pointerBytes : Nat := 8

namespace Numeral

/-- Lower-case hexadecimal after the mark `0x`, without leading zeros. -/
def hex (w : Word) : String :=
  "0x" ++ String.ofList (Nat.toDigits 16 w.toNat)

/-- Decimal, filled with zeros to four places; a longer number keeps all its digits. -/
def dec4 (n : Nat) : String :=
  let digits := Nat.toDigits 10 n
  String.ofList (List.replicate (4 - digits.length) '0' ++ digits)

/-- Numbers in brackets, with a comma and a blank between two of them. -/
def bracketed (ns : List Nat) : String :=
  "[" ++ ", ".intercalate (ns.map toString) ++ "]"

end Numeral

end StackFlow
