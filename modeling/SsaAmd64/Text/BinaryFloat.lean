/-
**Binary floating-point patterns, read exactly.**

A bit pattern is decoded into a sign, a significand and a power of two. Everything printed about a
float is computed from these in exact arithmetic:

* `FloatDatum.sixPlaces`: the decimal value to six places, a tie going to the even neighbour;
* `FloatFormat.doubleBits?`: the same value as a pattern of the wider format.
-/

import SsaAmd64.Ty.Basic
import SsaAmd64.Text.Digits
import SsaAmd64.Word

namespace SsaAmd64

namespace FloatFormat

/-- Stored bits of the significand. -/
def fractionBits : FloatFormat → Nat
  | single => 23
  | double => 52

def exponentBits : FloatFormat → Nat
  | single => 8
  | double => 11

/-- What is added to a power of two before it is stored. -/
def bias : FloatFormat → Nat
  | single => 127
  | double => 1023

end FloatFormat

/-- What a bit pattern stands for. -/
inductive FloatDatum where
  | notANumber
  | infinite (negative : Bool)
  /-- The number `± significand * 2 ^ exponent`. -/
  | finite (negative : Bool) (significand : Nat) (exponent : Int)
deriving DecidableEq

/-- The datum of a bit pattern. -/
def FloatFormat.decode (format : FloatFormat) (bits : Nat) : FloatDatum :=
  let fraction := bits % patternCount format.fractionBits
  let stored := bits / patternCount format.fractionBits % patternCount format.exponentBits
  let negative := bits / patternCount (format.fractionBits + format.exponentBits) % 2 == 1
  if stored = patternCount format.exponentBits - 1 then
    if fraction = 0 then .infinite negative else .notANumber
  else if stored = 0 then
    .finite negative fraction (1 - (format.bias : Int) - format.fractionBits)
  else
    .finite negative (fraction + patternCount format.fractionBits)
      ((stored : Int) - format.bias - format.fractionBits)

/-- The quotient rounded to the nearest whole number, a tie going to the even one. -/
def roundDiv (numerator denominator : Nat) : Nat :=
  let quotient := numerator / denominator
  let twice := 2 * (numerator % denominator)
  if denominator < twice || (twice == denominator && quotient % 2 == 1) then quotient + 1
  else quotient

/-- A whole number of millionths as a decimal with six places. -/
def Text.millionths (count : Nat) : String :=
  toString (count / 1000000) ++ "." ++ String.ofList (padded 10 6 (count % 1000000))

/-- The decimal text of a datum, to six places. -/
def FloatDatum.sixPlaces : FloatDatum → String
  | notANumber => "NaN"
  | infinite negative => if negative then "-inf" else "inf"
  | finite negative significand exponent =>
    let scaled := significand * 1000000
    let count :=
      if 0 ≤ exponent then scaled * patternCount exponent.toNat
      else roundDiv scaled (patternCount (-exponent).toNat)
    (if negative then "-" else "") ++ Text.millionths count

/-- The double-format pattern of the value of a pattern; none for what is not a number. A value of
either format is a value of the double format. -/
def FloatFormat.doubleBits? (format : FloatFormat) (bits : Nat) : Option Nat :=
  let sign (negative : Bool) := if negative then patternCount 63 else 0
  match format, format.decode bits with
  | _, .notANumber => none
  | .double, _ => some bits
  | .single, .infinite negative => some (sign negative + 2047 * patternCount 52)
  | .single, .finite negative significand exponent =>
    if significand = 0 then some (sign negative)
    else
      let top := significand.log2
      let stored := (exponent + top + 1023).toNat
      let fraction := significand * patternCount (52 - top) - patternCount 52
      some (sign negative + stored * patternCount 52 + fraction)

end SsaAmd64
