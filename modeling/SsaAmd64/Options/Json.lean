/-
**Settings in JSON.**

Settings are an object with the members `platform` and `ir_comments`, or a list of the two values in
this order. What is left out keeps its default. Other members are ignored, but neither of the two
may occur twice.

* `Options.ofText?`: the settings that a text holds;
* `Options.text`: their compact text.
-/

import SsaAmd64.Json.Value
import SsaAmd64.Json.Writing
import SsaAmd64.Options.Basic

namespace SsaAmd64

/-- A platform is named by a string, or by the key of an object whose only value is null. -/
def Platform.ofJson? : Json.Value → Option Platform
  | .string (some name) => ofName? name
  | .object [(some name, .null)] => ofName? name
  | _ => none

namespace Options

def commentsOfJson? : Json.Value → Option Bool
  | .bool value => some value
  | _ => none

/-- Settings of which some have been given. -/
structure Draft where
  platform : Option Platform
  comments : Option Bool

def Draft.empty : Draft := ⟨none, none⟩

/-- The settings, with defaults for what has not been given. -/
def Draft.finish (draft : Draft) : Options :=
  ⟨draft.platform.getD default.platform, draft.comments.getD default.comments⟩

/-- Takes in a member of an object. -/
def Draft.addMember? (draft : Draft) : Option String × Json.Value → Option Draft
  | (none, _) => none
  | (some "platform", value) =>
    if draft.platform.isSome then none
    else (Platform.ofJson? value).map fun platform => { draft with platform }
  | (some "ir_comments", value) =>
    if draft.comments.isSome then none
    else (commentsOfJson? value).map fun comments => { draft with comments }
  | (some _, _) => some draft

/-- The settings that a value stands for. -/
def ofJson? : Json.Value → Option Options
  | .object members => (members.foldlM Draft.addMember? .empty).map Draft.finish
  | .list [] => some default
  | .list [platform] => do return ⟨← Platform.ofJson? platform, default.comments⟩
  | .list [platform, comments] => do
    return ⟨← Platform.ofJson? platform, ← commentsOfJson? comments⟩
  | _ => none

/-- The settings that a text holds. -/
def ofText? (text : String) : Option Options := do
  ofJson? (← Json.Value.ofText? text)

/-- The compact text of settings. -/
def text (options : Options) : String :=
  "\x7b" ++ Json.quoted "platform" ++ ":" ++ Json.quoted options.platform.name ++ "," ++
    Json.quoted "ir_comments" ++ ":" ++ (if options.comments then "true" else "false") ++ "\x7d"

end Options

end SsaAmd64
