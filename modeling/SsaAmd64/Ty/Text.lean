/-
**The text of a type.**

`i32`, `f64`, `*i8`, `[4]i8`, `{ i8, i32 }`, `{ packed i8 }`, `func i32(i8, ...)`, `label`, `void`.
A struct without fields keeps both inner blanks, and a variadic function puts a separator after each
of its parameters.
-/

import SsaAmd64.Ty.Basic

namespace SsaAmd64

namespace Ty

mutual

/-- The text of a type. -/
def text : Ty → String
  | int width => "i" ++ toString width
  | float .single => "f32"
  | float .double => "f64"
  | pointer element => "*" ++ element.text
  | array length element => "[" ++ toString length ++ "]" ++ element.text
  | struct packed fields =>
    "\x7b " ++ (if packed then "packed " else "") ++ fieldsText fields ++ " \x7d"
  | function result parameters variadic =>
    "func " ++ result.text ++ "(" ++
      (if variadic then openText parameters ++ "..." else fieldsText parameters) ++ ")"
  | label => "label"
  | void => "void"

/-- The texts of the types of a list, separated by commas. -/
def fieldsText : List Ty → String
  | [] => ""
  | [type] => type.text
  | type :: types => type.text ++ ", " ++ fieldsText types

/-- The texts of the types of a list, each followed by a comma. -/
def openText : List Ty → String
  | [] => ""
  | type :: types => type.text ++ ", " ++ openText types

end

end Ty

end SsaAmd64
