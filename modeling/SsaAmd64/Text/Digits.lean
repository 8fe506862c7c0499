/-
**Digits of a fixed count.**

Numbers written in a base with zeros in front, as bit patterns and escapes are.
-/

namespace SsaAmd64

namespace Text

/-- The digits of a number in a base, with zeros in front up to a least count. -/
def padded (base count value : Nat) : List Char :=
  let digits := Nat.toDigits base value
  List.replicate (count - digits.length) '0' ++ digits

/-- Upper-case hexadecimal digits, at least `count` of them. -/
def upperHex (count value : Nat) : String :=
  String.ofList ((padded 16 count value).map Char.toUpper)

/-- Lower-case hexadecimal digits, at least `count` of them. -/
def lowerHex (count value : Nat) : String :=
  String.ofList (padded 16 count value)

end Text

end SsaAmd64
