/-
**Escaped byte strings.**

Letters, digits and a fixed set of punctuation stand for themselves. Seven bytes have a letter
escape. Every other byte is a backslash and three octal digits. So the text is printable and safe
between double quotes.
-/

import SsaAmd64.Text.Digits

namespace SsaAmd64

namespace Text

/-- Punctuation that stands for itself. -/
def plainPunctuation : List Char :=
  " _!@$%^&*()\x7b\x7d[]|:;<>?,./~`".toList

/-- The letter that escapes a character, if one does. -/
def escapeLetter? : Char → Option Char
  | '\n' => some 'n'
  | '\t' => some 't'
  | '\r' => some 'r'
  | '\x0c' => some 'f'
  | '\x08' => some 'b'
  | '"' => some '"'
  | '\\' => some '\\'
  | _ => none

/-- Whether a character stands for itself. -/
def isPlain (character : Char) : Bool :=
  character.isAlphanum || plainPunctuation.contains character

/-- The written form of one byte. -/
def escapeByte (byte : UInt8) : List Char :=
  let character := Char.ofNat byte.toNat
  if isPlain character then [character]
  else match escapeLetter? character with
    | some letter => ['\\', letter]
    | none => '\\' :: padded 8 3 byte.toNat

/-- The written form of a byte string. -/
def escape (bytes : List UInt8) : String :=
  String.ofList (bytes.flatMap escapeByte)

end Text

end SsaAmd64
