/-
**JSON values.**

A value is read from tokens in one pass. What has been read of the lists and objects around the
present place is kept in a stack of frames, so depth is not limited.

* `Json.Value.ofText?`: the value that a text holds, if it holds exactly one.
-/

import SsaAmd64.Json.Token

namespace SsaAmd64

namespace Json

/-- A value. Numbers are told apart from other values and not from one another. -/
inductive Value where
  | null
  | bool (value : Bool)
  | number
  /-- A string; its text is none if half of a pair of units stands alone in it. -/
  | string (text : Option String)
  | list (items : List Value)
  /-- Members in the order of the text; a key may occur more than once. -/
  | object (members : List (Option String × Value))

/-- What has been read of a list or object, last first. -/
inductive Frame where
  | list (items : List Value)
  /-- An object, and the key whose value comes next. -/
  | object (members : List (Option String × Value)) (key : Option String)

mutual

/-- Reads on where a value is due. -/
def readValue? (frames : List Frame) : List Token → Option Value
  | .null :: rest => readRest? .null frames rest
  | .bool value :: rest => readRest? (.bool value) frames rest
  | .number :: rest => readRest? .number frames rest
  | .string text :: rest => readRest? (.string text) frames rest
  | .openList :: .closeList :: rest => readRest? (.list []) frames rest
  | .openList :: rest => readValue? (.list [] :: frames) rest
  | .openObject :: .closeObject :: rest => readRest? (.object []) frames rest
  | .openObject :: .string key :: .colon :: rest => readValue? (.object [] key :: frames) rest
  | _ => none

/-- Reads on where a value is complete. -/
def readRest? (value : Value) (frames : List Frame) : List Token → Option Value
  | [] =>
    match frames with
    | [] => some value
    | _ => none
  | .comma :: .string key :: .colon :: rest =>
    match frames with
    | .object members last :: outer =>
      readValue? (.object ((last, value) :: members) key :: outer) rest
    | _ => none
  | .comma :: rest =>
    match frames with
    | .list items :: outer => readValue? (.list (value :: items) :: outer) rest
    | _ => none
  | .closeList :: rest =>
    match frames with
    | .list items :: outer => readRest? (.list (value :: items).reverse) outer rest
    | _ => none
  | .closeObject :: rest =>
    match frames with
    | .object members key :: outer =>
      readRest? (.object ((key, value) :: members).reverse) outer rest
    | _ => none
  | _ => none

end

/-- The value that a text holds, if it holds exactly one. -/
def Value.ofText? (text : String) : Option Value := do
  readValue? [] (← tokens? text.toList)

end Json

end SsaAmd64
