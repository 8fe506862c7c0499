/-
**Literals.**

Integers of a declared width, floats kept as bit patterns, and byte strings.

* `Literal.ofNat`: an integer is reduced to its width, and to 128 bits in any case;
* `Literal.length_image`: the memory image has exactly the requested size.
-/

import SsaAmd64.Bytes
import SsaAmd64.Ty.Basic
import SsaAmd64.Text.BinaryFloat
import SsaAmd64.Text.Escape
import SsaAmd64.Word

namespace SsaAmd64

/-- Constant values. -/
inductive Literal where
  | int (width value : Nat) (inRange : value < patternCount (min width 128))
  | float (format : FloatFormat) (bits : Nat)
  | bytes (content : List UInt8)
deriving DecidableEq

namespace Literal

/-- The integer of a width that a number reduces to. -/
def ofNat (width value : Nat) : Literal :=
  int width (value % patternCount (min width 128)) (Nat.mod_lt _ (patternCount_pos _))

/-- The bytes of a text, closed by a zero byte if asked. -/
def ofText (text : String) (terminated : Bool) : Literal :=
  bytes (text.toUTF8.toList ++ if terminated then [0] else [])

/-- A byte string is an array of 8-bit integers. -/
def type : Literal → Ty
  | int width _ _ => .int width
  | float format _ => .float format
  | bytes content => .array content.length (.int 8)

/-- The value of an integer literal. -/
def natValue? : Literal → Option Nat
  | int _ value _ => some value
  | _ => none

/-- The datum of a float literal. -/
def datum? : Literal → Option FloatDatum
  | float format bits => some (format.decode bits)
  | _ => none

/-- The memory image in the given number of bytes: low bytes first, filled up with zeros. -/
def image (size : Nat) : Literal → List UInt8
  | int _ value _ => Bytes.ofNat size value
  | float format bits => Bytes.ofNat size (bits % patternCount format.width)
  | bytes content => Bytes.resize size content

@[simp] theorem length_image (size : Nat) (literal : Literal) :
    (literal.image size).length = size := by
  cases literal <;> simp [image]

/-- Integers in decimal, floats as their bit pattern, byte strings quoted. -/
def text : Literal → String
  | int _ value _ => toString value
  | float format bits => "0x" ++ Text.upperHex (format.width / 4) bits
  | bytes content => "\"" ++ Text.escape content ++ "\""

end Literal

end SsaAmd64
