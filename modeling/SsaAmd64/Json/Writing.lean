/-
**Writing JSON.**

Quoted strings, and lists and objects laid out with an indentation of two blanks for each level.
-/

import SsaAmd64.Text.Digits

namespace SsaAmd64

namespace Json

/-- A character inside quotes. Control characters are escaped, by a letter where there is one. -/
def quotedCharacter : Char → List Char
  | '"' => ['\\', '"']
  | '\\' => ['\\', '\\']
  | '\x08' => ['\\', 'b']
  | '\x0c' => ['\\', 'f']
  | '\n' => ['\\', 'n']
  | '\r' => ['\\', 'r']
  | '\t' => ['\\', 't']
  | character =>
    if character.toNat < 0x20 then ['\\', 'u'] ++ Text.padded 16 4 character.toNat else [character]

/-- A text in quotes. -/
def quoted (text : String) : String :=
  String.ofList ('"' :: text.toList.flatMap quotedCharacter ++ ['"'])

/-- Blanks in front of a line at a level. -/
def indentation (level : Nat) : String :=
  String.ofList (List.replicate (2 * level) ' ')

/-- Items between brackets, each on lines of its own; without items the brackets stay together. -/
def items (opening closing : String) (level : Nat) : List String → String
  | [] => opening ++ closing
  | texts =>
    opening ++ "\n" ++ ",\n".intercalate (texts.map (indentation (level + 1) ++ ·)) ++ "\n" ++
      indentation level ++ closing

/-- A list at a level. -/
def list (level : Nat) (texts : List String) : String :=
  items "[" "]" level texts

/-- An object at a level. -/
def object (level : Nat) (members : List (String × String)) : String :=
  items "\x7b" "\x7d" level (members.map fun (key, value) => quoted key ++ ": " ++ value)

end Json

end SsaAmd64
