/-
**The text of a type identifies it.**

The text of a type can be read from the left: its first characters tell how the type is built, and
it is clear where the text of each part ends. Only numbers have no mark at their end, but no digit
ever follows a type. So a type is determined by any text that begins with its own and goes on with
something else than a digit.

* `Ty.readBuild?_text`: the first characters of a text tell how the type is built;
* `Ty.fieldsText_append_inj`, `Ty.openText_append_inj`, `Ty.openText_ne_fieldsText`: lists of types
  are told by their texts if their members are;
* `Ty.told`: texts that begin with two types are the same only if the types and the rests are;
* `Ty.text_eq_iff`: the text of a type identifies it.
-/

import SsaAmd64.Ty.Text

namespace SsaAmd64

namespace Ty

variable {rest rest' : List Char}

/-! ### Numbers -/

/-- No digit comes first, so that a number in front ends here. -/
def EndsNumber (rest : List Char) : Prop :=
  ∀ character ∈ rest.head?, character.isDigit = false

theorem endsNumber_nil : EndsNumber [] :=
  nofun

theorem endsNumber_cons {character : Char} (mark : character.isDigit = false) (rest : List Char) :
    EndsNumber (character :: rest) := by
  rintro _ ⟨⟩
  exact mark

/-- The digits in front of a text that begins with none are those of a number. -/
theorem takeWhile_digits (number : Nat) (ends : EndsNumber rest) :
    ((toString number).toList ++ rest).takeWhile Char.isDigit = (toString number).toList := by
  have digits : ∀ character ∈ (toString number).toList, character.isDigit = true := by
    intro character member
    rw [Nat.toString_eq_repr, Nat.toList_repr] at member
    exact Nat.isDigit_of_mem_toDigits (by decide) (by decide) member
  rw [List.takeWhile_append_of_pos digits]
  cases rest with
  | nil => simp
  | cons character rest =>
    rw [List.takeWhile_cons_of_neg (by simp [ends character rfl]), List.append_nil]

/-- Numbers with the same digits are the same, and leave the same rest. -/
theorem number_append_inj {first second : Nat} (ends : EndsNumber rest) (ends' : EndsNumber rest')
    (same : (toString first).toList ++ rest = (toString second).toList ++ rest') :
    first = second ∧ rest = rest' := by
  have digits := congrArg (List.takeWhile Char.isDigit) same
  rw [takeWhile_digits first ends, takeWhile_digits second ends'] at digits
  rw [digits] at same
  refine ⟨?_, List.append_cancel_left same⟩
  have value := congrArg (Nat.ofDigitChars 10 · 0) digits
  simpa [Nat.toString_eq_repr, Nat.toList_repr, Nat.ofDigitChars_toDigits] using value

/-! ### First characters -/

/-- How a type is built, apart from its parts. -/
inductive Build where
  | int
  | float (format : FloatFormat)
  | pointer
  | array
  | struct
  | function
  | label
  | void

def build : Ty → Build
  | int _ => .int
  | float format => .float format
  | pointer _ => .pointer
  | array .. => .array
  | struct .. => .struct
  | function .. => .function
  | label => .label
  | void => .void

/-- How the type is built whose text begins here. -/
def readBuild? : List Char → Option Build
  | 'i' :: _ => some .int
  | 'f' :: '3' :: _ => some (.float .single)
  | 'f' :: '6' :: _ => some (.float .double)
  | 'f' :: 'u' :: _ => some .function
  | '*' :: _ => some .pointer
  | '[' :: _ => some .array
  | '\x7b' :: _ => some .struct
  | 'l' :: _ => some .label
  | 'v' :: _ => some .void
  | _ => none

theorem readBuild?_text (type : Ty) (rest : List Char) :
    readBuild? (type.text.toList ++ rest) = some type.build := by
  cases type with
  | float format => cases format <;> rfl
  | _ => simp [text, readBuild?, build]

/-- Where no type can be read, none begins. -/
theorem ne_text_append (unread : readBuild? rest = none) (type : Ty) (other : List Char) :
    rest ≠ type.text.toList ++ other := by
  rintro rfl
  rw [readBuild?_text] at unread
  cases unread

/-- The mark behind the last type of a list comes first. -/
def Closes (text : List Char) : Prop :=
  ∃ rest, text = ' ' :: rest ∨ text = ')' :: rest

theorem Closes.readBuild? (closes : Closes rest) : readBuild? rest = none := by
  obtain ⟨rest, rfl | rfl⟩ := closes <;> rfl

theorem Closes.endsNumber (closes : Closes rest) : EndsNumber rest := by
  obtain ⟨rest, rfl | rfl⟩ := closes <;> exact endsNumber_cons rfl rest

/-- No other mark closes a list. -/
theorem Closes.ne_cons {character : Char} (closes : Closes rest)
    (other : character ∉ [' ', ')']) : rest ≠ character :: rest' := by
  rintro rfl
  obtain ⟨_, same | same⟩ := closes <;> simp [(List.cons.inj same).1] at other

/-! ### Lists of types -/

/-- Texts that begin with two types are the same only if the types and the rests are. -/
def Told (first second : Ty) : Prop :=
  ∀ rest rest', EndsNumber rest → EndsNumber rest' →
    first.text.toList ++ rest = second.text.toList ++ rest' → first = second ∧ rest = rest'

theorem Told.symm {first second : Ty} (told : Told first second) : Told second first := by
  intro rest rest' ends ends' same
  obtain ⟨types, behind⟩ := told rest' rest ends' ends same.symm
  exact ⟨types.symm, behind.symm⟩

/-- The types of one list are told from those of another. -/
def AllTold (firsts seconds : List Ty) : Prop :=
  ∀ first ∈ firsts, ∀ second ∈ seconds, Told first second

theorem AllTold.symm {firsts seconds : List Ty} (told : AllTold firsts seconds) :
    AllTold seconds firsts :=
  fun second member first member' => (told first member' second member).symm

theorem AllTold.head {first second : Ty} {firsts seconds : List Ty}
    (told : AllTold (first :: firsts) (second :: seconds)) : Told first second :=
  told first List.mem_cons_self second List.mem_cons_self

theorem AllTold.tail {first second : Ty} {firsts seconds : List Ty}
    (told : AllTold (first :: firsts) (second :: seconds)) : AllTold firsts seconds :=
  fun first member second member' =>
    told first (List.mem_cons_of_mem _ member) second (List.mem_cons_of_mem _ member')

/-- What comes behind a type: the other types of the list, and what follows the list. -/
def follow (types : List Ty) (rest : List Char) : List Char :=
  match types with
  | [] => rest
  | types => ',' :: ' ' :: ((fieldsText types).toList ++ rest)

theorem fieldsText_cons (type : Ty) (types : List Ty) (rest : List Char) :
    (fieldsText (type :: types)).toList ++ rest = type.text.toList ++ follow types rest := by
  cases types <;> simp [fieldsText, follow]

theorem openText_cons (type : Ty) (types : List Ty) (rest : List Char) :
    (openText (type :: types)).toList ++ rest =
      type.text.toList ++ ',' :: ' ' :: ((openText types).toList ++ rest) := by
  simp [openText]

theorem endsNumber_follow (types : List Ty) (ends : EndsNumber rest) :
    EndsNumber (follow types rest) := by
  cases types with
  | nil => exact ends
  | cons type types => exact endsNumber_cons rfl _

variable {firsts seconds : List Ty}

/-- **Types separated by commas are told by their text.** -/
theorem fieldsText_append_inj (told : AllTold firsts seconds) (closes : Closes rest)
    (closes' : Closes rest')
    (same : (fieldsText firsts).toList ++ rest = (fieldsText seconds).toList ++ rest') :
    firsts = seconds ∧ rest = rest' := by
  induction firsts generalizing seconds with
  | nil =>
    cases seconds with
    | nil => exact ⟨rfl, same⟩
    | cons second seconds =>
      rw [fieldsText_cons] at same
      exact absurd same (ne_text_append closes.readBuild? second _)
  | cons first firsts ih =>
    cases seconds with
    | nil =>
      rw [fieldsText_cons] at same
      exact absurd same.symm (ne_text_append closes'.readBuild? first _)
    | cons second seconds =>
      rw [fieldsText_cons, fieldsText_cons] at same
      obtain ⟨rfl, behind⟩ := told.head _ _ (endsNumber_follow firsts closes.endsNumber)
        (endsNumber_follow seconds closes'.endsNumber) same
      cases firsts with
      | nil =>
        cases seconds with
        | nil => exact ⟨rfl, behind⟩
        | cons next seconds => exact absurd behind (closes.ne_cons (by decide))
      | cons next firsts =>
        cases seconds with
        | nil => exact absurd behind.symm (closes'.ne_cons (by decide))
        | cons next' seconds =>
          obtain ⟨others, left⟩ := ih told.tail (List.cons.inj (List.cons.inj behind).2).2
          exact ⟨congrArg _ others, left⟩

/-- **Types that a comma follows each are told by their text**, where dots come behind them. -/
theorem openText_append_inj (told : AllTold firsts seconds)
    (same : (openText firsts).toList ++ '.' :: rest = (openText seconds).toList ++ '.' :: rest') :
    firsts = seconds ∧ rest = rest' := by
  induction firsts generalizing seconds with
  | nil =>
    cases seconds with
    | nil => exact ⟨rfl, (List.cons.inj same).2⟩
    | cons second seconds =>
      rw [openText_cons] at same
      exact absurd same (ne_text_append rfl second _)
  | cons first firsts ih =>
    cases seconds with
    | nil =>
      rw [openText_cons] at same
      exact absurd same.symm (ne_text_append rfl first _)
    | cons second seconds =>
      rw [openText_cons, openText_cons] at same
      obtain ⟨rfl, behind⟩ := told.head _ _ (endsNumber_cons rfl _) (endsNumber_cons rfl _) same
      obtain ⟨others, left⟩ := ih told.tail (List.cons.inj (List.cons.inj behind).2).2
      exact ⟨congrArg _ others, left⟩

/-- **Dots do not read as a type, nor as the end of a list.** -/
theorem openText_ne_fieldsText (told : AllTold firsts seconds) (closes : Closes rest') :
    (openText firsts).toList ++ '.' :: rest ≠ (fieldsText seconds).toList ++ rest' := by
  induction firsts generalizing seconds with
  | nil =>
    intro same
    cases seconds with
    | nil => exact closes.ne_cons (by decide) same.symm
    | cons second seconds =>
      rw [fieldsText_cons] at same
      exact ne_text_append rfl second _ same
  | cons first firsts ih =>
    intro same
    cases seconds with
    | nil =>
      rw [openText_cons] at same
      exact ne_text_append closes.readBuild? first _ same.symm
    | cons second seconds =>
      rw [openText_cons, fieldsText_cons] at same
      obtain ⟨rfl, behind⟩ := told.head _ _ (endsNumber_cons rfl _)
        (endsNumber_follow seconds closes.endsNumber) same
      cases seconds with
      | nil => exact closes.ne_cons (by decide) behind.symm
      | cons next seconds => exact ih told.tail (List.cons.inj (List.cons.inj behind).2).2

/-- What stands inside a struct tells its fields, and whether it is packed: no field begins like the
word that says so. -/
theorem inside_struct_inj {packed packed' : Bool} (told : AllTold firsts seconds)
    (closes : Closes rest) (closes' : Closes rest')
    (same : (if packed then "packed " else "").toList ++ ((fieldsText firsts).toList ++ rest) =
      (if packed' then "packed " else "").toList ++ ((fieldsText seconds).toList ++ rest')) :
    packed = packed' ∧ firsts = seconds ∧ rest = rest' := by
  have plain : ∀ {types : List Ty} {rest other : List Char}, Closes rest →
      (fieldsText types).toList ++ rest ≠ 'p' :: other := by
    intro types rest other closes same
    cases types with
    | nil => exact closes.ne_cons (by decide) same
    | cons type types =>
      rw [fieldsText_cons] at same
      exact ne_text_append rfl type _ same.symm
  cases packed <;> cases packed'
  case false.false => exact ⟨rfl, fieldsText_append_inj told closes closes' same⟩
  case false.true => exact absurd same (plain closes)
  case true.false => exact absurd same.symm (plain closes')
  case true.true =>
    exact ⟨rfl, fieldsText_append_inj told closes closes' (List.append_cancel_left same)⟩

/-- What stands inside the parentheses of a function type tells its parameters, and whether it is
variadic. -/
theorem inside_function_inj {variadic variadic' : Bool} (told : AllTold firsts seconds)
    (same : (if variadic then openText firsts ++ "..." else fieldsText firsts).toList ++
        ')' :: rest =
      (if variadic' then openText seconds ++ "..." else fieldsText seconds).toList ++
        ')' :: rest') :
    variadic = variadic' ∧ firsts = seconds ∧ rest = rest' := by
  have closes : ∀ rest, Closes (')' :: rest) := fun rest => ⟨rest, .inr rfl⟩
  have dots : ∀ types rest, (openText types ++ "...").toList ++ ')' :: rest =
      (openText types).toList ++ '.' :: '.' :: '.' :: ')' :: rest := by simp
  cases variadic <;> cases variadic'
  case false.false =>
    obtain ⟨types, behind⟩ := fieldsText_append_inj told (closes rest) (closes rest') same
    exact ⟨rfl, types, (List.cons.inj behind).2⟩
  case false.true =>
    exact absurd ((dots seconds rest').symm.trans same.symm)
      (openText_ne_fieldsText told.symm (closes rest))
  case true.false =>
    exact absurd ((dots firsts rest).symm.trans same) (openText_ne_fieldsText told (closes rest'))
  case true.true =>
    obtain ⟨types, behind⟩ :=
      openText_append_inj told ((dots firsts rest).symm.trans (same.trans (dots seconds rest')))
    exact ⟨rfl, types, by simpa using behind⟩

/-! ### Types -/

/-- **Any two types are told by their texts**, by induction on how the first is built. -/
theorem told (first second : Ty) : Told first second := by
  intro rest rest' ends ends' same
  have built : first.build = second.build := by
    simpa only [readBuild?_text, Option.some.injEq] using congrArg readBuild? same
  cases first <;> cases second <;> cases built
  case int.int width width' =>
    obtain ⟨rfl, behind⟩ := number_append_inj ends ends' (by simpa [text] using same)
    exact ⟨rfl, behind⟩
  case float.float format => exact ⟨rfl, List.append_cancel_left same⟩
  case pointer.pointer element element' =>
    obtain ⟨rfl, behind⟩ :=
      told element element' rest rest' ends ends' (by simpa [text] using same)
    exact ⟨rfl, behind⟩
  case array.array length element length' element' =>
    have numbers : (toString length).toList ++ ']' :: (element.text.toList ++ rest) =
        (toString length').toList ++ ']' :: (element'.text.toList ++ rest') := by
      simpa [text] using same
    obtain ⟨rfl, elements⟩ :=
      number_append_inj (endsNumber_cons rfl _) (endsNumber_cons rfl _) numbers
    obtain ⟨rfl, behind⟩ :=
      told element element' rest rest' ends ends' (List.cons.inj elements).2
    exact ⟨rfl, behind⟩
  case struct.struct packed fields packed' fields' =>
    have inner : (if packed then "packed " else "").toList ++
          ((fieldsText fields).toList ++ ' ' :: '\x7d' :: rest) =
        (if packed' then "packed " else "").toList ++
          ((fieldsText fields').toList ++ ' ' :: '\x7d' :: rest') := by
      simpa [text] using same
    obtain ⟨rfl, rfl, behind⟩ := inside_struct_inj
      (fun field _ field' _ => told field field')
      ⟨_, .inl rfl⟩ ⟨_, .inl rfl⟩ inner
    exact ⟨rfl, (List.cons.inj (List.cons.inj behind).2).2⟩
  case function.function result parameters variadic result' parameters' variadic' =>
    have results : result.text.toList ++ '(' ::
          ((if variadic then openText parameters ++ "..." else fieldsText parameters).toList ++
            ')' :: rest) =
        result'.text.toList ++ '(' ::
          ((if variadic' then openText parameters' ++ "..." else fieldsText parameters').toList ++
            ')' :: rest') := by
      simpa [text] using same
    obtain ⟨rfl, inner⟩ :=
      told result result' _ _ (endsNumber_cons rfl _) (endsNumber_cons rfl _) results
    obtain ⟨rfl, rfl, behind⟩ := inside_function_inj
      (fun parameter _ parameter' _ => told parameter parameter') (List.cons.inj inner).2
    exact ⟨rfl, behind⟩
  case label.label => exact ⟨rfl, List.append_cancel_left same⟩
  case void.void => exact ⟨rfl, List.append_cancel_left same⟩
termination_by sizeOf first

/-- **The text of a type identifies it.** -/
theorem text_eq_iff (first second : Ty) : first.text = second.text ↔ first = second := by
  refine ⟨fun same => ?_, congrArg text⟩
  refine (told first second [] [] endsNumber_nil endsNumber_nil ?_).1
  rw [same]

/-- It does so although the result of a function stands in front of its parentheses, and may be a
function itself. -/
example : (function (function (int 8) [] false) [pointer (int 8)] true).text =
    "func func i8()(*i8, ...)" := by
  cbv

end Ty

end SsaAmd64
