/-
**Tokens of JSON.**

Marks, words, numbers and strings, with blanks between them.

* `Json.takeString?`: what a string holds and what follows it. A string is read as characters and
  16-bit units, so that an escape that is one half of a pair can wait for the other half;
* `Json.joinPieces?`: the text of a string, if no half stands alone;
* `Json.takeNumber?`: what follows a number;
* `Json.tokens?`: the tokens of a text, if it consists of tokens.
-/

import SsaAmd64.Text.Hex

namespace SsaAmd64

namespace Json

inductive Token where
  | openObject
  | closeObject
  | openList
  | closeList
  | colon
  | comma
  | null
  | bool (value : Bool)
  | number
  /-- A string; its text is none if half of a pair of units stands alone in it. -/
  | string (text : Option String)
deriving DecidableEq

/-! ### Strings -/

/-- What a string is made of. -/
inductive Piece where
  | character (character : Char)
  /-- A 16-bit unit, written as an escape with four digits. -/
  | unit (value : Nat)
deriving DecidableEq

/-- The character that a letter behind a backslash stands for. -/
def escaped? : Char → Option Char
  | '"' => some '"'
  | '\\' => some '\\'
  | '/' => some '/'
  | 'b' => some '\x08'
  | 'f' => some '\x0c'
  | 'n' => some '\n'
  | 'r' => some '\r'
  | 't' => some '\t'
  | _ => none

/-- The pieces of a string, read from behind its first quote, and what follows the string. A control
character has to be escaped. -/
def takeString? : List Char → Option (List Piece × List Char)
  | [] => none
  | '"' :: rest => some ([], rest)
  | '\\' :: 'u' :: first :: second :: third :: fourth :: rest => do
    let value ← Text.hexNat? [first, second, third, fourth]
    let (pieces, after) ← takeString? rest
    return (.unit value :: pieces, after)
  | '\\' :: letter :: rest => do
    let character ← escaped? letter
    let (pieces, after) ← takeString? rest
    return (.character character :: pieces, after)
  | character :: rest =>
    if character.toNat < 0x20 then none
    else do
      let (pieces, after) ← takeString? rest
      return (.character character :: pieces, after)

/-- Units that are the first half of a pair. -/
def isFirstHalf (value : Nat) : Bool :=
  0xD800 ≤ value && value < 0xDC00

/-- Units that are the second half of a pair. -/
def isSecondHalf (value : Nat) : Bool :=
  0xDC00 ≤ value && value < 0xE000

/-- The character that two halves make. -/
def paired (first second : Nat) : Char :=
  Char.ofNat (0x10000 + (first - 0xD800) * 0x400 + (second - 0xDC00))

/-- The characters that pieces stand for, where `waiting` is a first half that was just read. -/
def joinFrom? : (waiting : Option Nat) → List Piece → Option (List Char)
  | none, [] => some []
  | none, .character character :: pieces => (joinFrom? none pieces).map (character :: ·)
  | none, .unit value :: pieces =>
    if isFirstHalf value then joinFrom? (some value) pieces
    else if isSecondHalf value then none
    else (joinFrom? none pieces).map (Char.ofNat value :: ·)
  | some first, .unit value :: pieces =>
    if isSecondHalf value then (joinFrom? none pieces).map (paired first value :: ·) else none
  | some _, _ => none

/-- The text that pieces stand for. -/
def joinPieces? (pieces : List Piece) : Option String :=
  (joinFrom? none pieces).map String.ofList

/-! ### Numbers -/

/-- What follows at least one digit. -/
def skipDigits? : List Char → Option (List Char)
  | first :: rest => if first.isDigit then some (rest.dropWhile Char.isDigit) else none
  | [] => none

/-- What follows the whole part of a number, which has no zero in front. -/
def skipWhole? : List Char → Option (List Char)
  | '0' :: rest => some rest
  | text => skipDigits? text

/-- What follows the decimals of a number, if it has any. -/
def skipDecimals? : List Char → Option (List Char)
  | '.' :: rest => skipDigits? rest
  | text => some text

/-- Drops the sign of an exponent, if it has one. -/
def dropSign : List Char → List Char
  | '+' :: rest => rest
  | '-' :: rest => rest
  | text => text

/-- What follows the exponent of a number, if it has one. -/
def skipExponent? : List Char → Option (List Char)
  | 'e' :: rest => skipDigits? (dropSign rest)
  | 'E' :: rest => skipDigits? (dropSign rest)
  | text => some text

/-- What follows a number. -/
def takeNumber? : List Char → Option (List Char)
  | '-' :: rest => unsigned rest
  | text => unsigned text
where
  unsigned (text : List Char) : Option (List Char) := do
    skipExponent? (← skipDecimals? (← skipWhole? text))

/-! ### Tokens -/

/-- Characters that may stand between tokens. -/
def isBlank (character : Char) : Bool :=
  character = ' ' || character = '\t' || character = '\n' || character = '\r'

/-- The token at the start of a text that starts with no blank, and what follows it. -/
def takeToken? : List Char → Option (Token × List Char)
  | '\x7b' :: rest => some (.openObject, rest)
  | '\x7d' :: rest => some (.closeObject, rest)
  | '[' :: rest => some (.openList, rest)
  | ']' :: rest => some (.closeList, rest)
  | ':' :: rest => some (.colon, rest)
  | ',' :: rest => some (.comma, rest)
  | '"' :: rest =>
    (takeString? rest).map fun (pieces, after) => (.string (joinPieces? pieces), after)
  | 'n' :: 'u' :: 'l' :: 'l' :: rest => some (.null, rest)
  | 't' :: 'r' :: 'u' :: 'e' :: rest => some (.bool true, rest)
  | 'f' :: 'a' :: 'l' :: 's' :: 'e' :: rest => some (.bool false, rest)
  | text => (takeNumber? text).map fun after => (.number, after)

/-- The tokens of a text. A token takes up at least one character. -/
def tokens? (text : List Char) : Option (List Token) :=
  match text with
  | [] => some []
  | first :: rest =>
    if isBlank first then tokens? rest
    else match takeToken? (first :: rest) with
      | none => none
      | some (token, after) =>
        if after.length ≤ rest.length then (tokens? after).map (token :: ·) else none
termination_by text.length

end Json

end SsaAmd64
