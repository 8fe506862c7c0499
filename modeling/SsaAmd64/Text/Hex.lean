/-
**Hexadecimal text.**

Numbers and byte strings read from hexadecimal digits of either case, and byte strings written as
two lower-case digits for each byte.
-/

import SsaAmd64.Text.Digits

namespace SsaAmd64

namespace Text

/-- The value of a hexadecimal digit. -/
def hexDigit? (character : Char) : Option Nat :=
  if character.isDigit then some (character.toNat - '0'.toNat)
  else if 'a' ≤ character ∧ character ≤ 'f' then some (character.toNat - 'a'.toNat + 10)
  else if 'A' ≤ character ∧ character ≤ 'F' then some (character.toNat - 'A'.toNat + 10)
  else none

/-- The number that digits stand for. -/
def hexNat? (digits : List Char) : Option Nat :=
  digits.foldlM (fun value character => (hexDigit? character).map (16 * value + ·)) 0

/-- The bytes that pairs of digits stand for. -/
def hexBytes? : List Char → Option (List UInt8)
  | [] => some []
  | high :: low :: rest => do
    let value ← hexNat? [high, low]
    let bytes ← hexBytes? rest
    return UInt8.ofNat value :: bytes
  | [_] => none

/-- Two digits for each byte. -/
def hexOfBytes (bytes : List UInt8) : String :=
  String.join (bytes.map fun byte => lowerHex 2 byte.toNat)

end Text

end SsaAmd64
