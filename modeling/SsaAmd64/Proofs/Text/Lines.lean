/-
**The lines of a text.**

A text is cut at every line feed. A line is a comment if its first character that is not blank is a
number sign, and comments are deleted line by line.

* `Text.lines`, `Text.isComment`, `Text.eraseComments`: the definitions;
* `Text.lines_closed`: the lines of a text behind a line that is closed;
* `Text.Single`: texts without line feeds.
-/

import SsaAmd64.Literal
import SsaAmd64.Proofs.Text.Escapes
import SsaAmd64.Ty.Text

namespace SsaAmd64

namespace Text

/-- The lines of a text, without the line feeds between them. -/
def lines (text : String) : List (List Char) :=
  text.toList.splitOn '\n'

/-- Whether the first character of a line that is not blank is a number sign. -/
def isComment (line : List Char) : Bool :=
  (line.dropWhile Char.isWhitespace).head? == some '#'

/-- **A text without the lines that are comments.** -/
def eraseComments (text : String) : String :=
  String.ofList (['\n'].intercalate ((lines text).filter fun line => !isComment line))

/-- **A text of a single line.** -/
def Single (text : String) : Prop :=
  '\n' ∉ text.toList

instance (text : String) : Decidable (Single text) :=
  inferInstanceAs (Decidable ('\n' ∉ text.toList))

/-! ### Lines -/

variable {text first second : String} {line front back : List Char}

theorem not_mem_of_mem_splitOn {chars : List Char} (member : line ∈ chars.splitOn '\n') :
    '\n' ∉ line := by
  induction chars generalizing line with
  | nil =>
    rw [List.splitOn_nil] at member
    rw [List.mem_singleton.mp member]
    exact List.not_mem_nil
  | cons char chars ih =>
    rw [List.splitOn_cons_eq_if_modifyHead] at member
    split at member
    case isTrue =>
      rcases List.mem_cons.mp member with rfl | later
      · exact List.not_mem_nil
      · exact ih later
    case isFalse other =>
      obtain ⟨head, others, cut⟩ := List.exists_cons_of_ne_nil (List.splitOn_ne_nil '\n' chars)
      rw [cut, List.modifyHead_cons] at member
      rcases List.mem_cons.mp member with rfl | later
      · have head := ih (cut ▸ List.mem_cons_self)
        exact fun inside => (List.mem_cons.mp inside).elim
          (fun same => other (beq_iff_eq.mpr same.symm)) head
      · exact ih (cut ▸ List.mem_cons_of_mem _ later)

/-- Characters before the first line feed belong to the first line. -/
theorem splitOn_append (single : '\n' ∉ front) (back : List Char) :
    (front ++ back).splitOn '\n' = (back.splitOn '\n').modifyHead (front ++ ·) := by
  induction front with
  | nil =>
    rw [List.nil_append]
    cases back.splitOn '\n' <;> rfl
  | cons char front ih =>
    have different : (char == '\n') = false := beq_false_of_ne fun same =>
      single (same ▸ List.mem_cons_self)
    rw [List.cons_append, List.splitOn_cons_eq_if_modifyHead, different, if_neg (by decide),
      ih fun member => single (List.mem_cons_of_mem _ member), List.modifyHead_modifyHead]
    rfl

/-- **The lines of a text that starts with a closed part.** -/
theorem lines_closed (first second : String) :
    lines (first ++ "\n" ++ second) = lines first ++ lines second := by
  rw [lines, String.toList_append, String.toList_append, List.append_assoc]
  exact List.splitOn_append_cons_self _ _

/-- A text is made of its lines. -/
theorem ofList_intercalate_lines (text : String) :
    String.ofList (['\n'].intercalate (lines text)) = text := by
  rw [lines, List.intercalate_splitOn, String.ofList_toList]

/-- What is left of a text is another, if what is left are the lines of the other. -/
theorem eraseComments_eq_iff {other : String}
    (some' : (lines text).filter (fun line => !isComment line) ≠ []) :
    eraseComments text = other ↔
      (lines text).filter (fun line => !isComment line) = lines other := by
  have single : ∀ line ∈ (lines text).filter (fun line => !isComment line), '\n' ∉ line :=
    fun line member => not_mem_of_mem_splitOn (List.mem_filter.mp member).1
  constructor
  · rintro rfl
    rw [eraseComments, lines.eq_def (String.ofList _), String.toList_ofList,
      List.splitOn_intercalate _ single some']
  · intro same
    rw [eraseComments, same, ofList_intercalate_lines]

theorem isComment_append (blank : front.all Char.isWhitespace = true) (back : List Char) :
    isComment (front ++ back) = isComment back := by
  rw [isComment, List.dropWhile_append_of_pos (List.all_eq_true.mp blank), isComment]

theorem isComment_cons {char : Char} (visible : char.isWhitespace = false) (chars : List Char) :
    isComment (char :: chars) = (char == '#') := by
  rw [isComment, List.dropWhile_cons_of_neg (by simp [visible]), List.head?_cons]
  rfl

/-! ### Texts of a single line -/

theorem digitChar_ne_lineFeed (digit : Nat) : Nat.digitChar digit ≠ '\n' := by
  by_cases small : digit < 16
  · have known : ∀ digit < 16, Nat.digitChar digit ≠ '\n' := by decide
    exact known digit small
  · have star : Nat.digitChar digit = '*' := by
      simp (disch := omega) only [Nat.digitChar, if_neg]
    rw [star]
    decide

theorem lineFeed_not_mem_toDigits (base value : Nat) : '\n' ∉ Nat.toDigits base value := by
  have core : ∀ (fuel value : Nat) (digits : List Char), '\n' ∉ digits →
      '\n' ∉ Nat.toDigitsCore base fuel value digits := by
    intro fuel
    induction fuel with
    | zero => exact fun _ _ single => single
    | succ fuel ih =>
      intro value digits single
      have more : '\n' ∉ (value % base).digitChar :: digits :=
        List.not_mem_cons_of_ne_of_not_mem (digitChar_ne_lineFeed _).symm single
      rw [Nat.toDigitsCore]
      split
      · exact more
      · exact ih _ _ more
  exact core _ value [] List.not_mem_nil

theorem lineFeed_not_mem_padded (base count value : Nat) : '\n' ∉ padded base count value := by
  intro member
  rcases List.mem_append.mp member with zero | digit
  · cases (List.mem_replicate.mp zero).2
  · exact lineFeed_not_mem_toDigits base value digit

namespace Single

@[simp] theorem append : Single (first ++ second) ↔ Single first ∧ Single second := by
  rw [Single, String.toList_append, List.mem_append, not_or]
  rfl

theorem lines_eq (single : Single text) : lines text = [text.toList] :=
  List.splitOn_eq_singleton single

theorem of_all {accepts : Char → Bool} (rejected : accepts '\n' = false)
    (all : text.toList.all accepts = true) : Single text := by
  intro member
  have accepted := List.all_eq_true.mp all _ member
  rw [rejected] at accepted
  cases accepted

@[simp] theorem repr (number : Nat) : Single number.repr := by
  intro member
  rw [Nat.toList_repr] at member
  exact lineFeed_not_mem_toDigits 10 number member

@[simp] theorem intRepr (number : Int) : Single number.repr := by
  cases number with
  | ofNat number => exact repr number
  | negSucc number =>
    have sign : Single "-" := by decide
    exact append.mpr ⟨sign, repr (number + 1)⟩

theorem join {texts : List String} (each : ∀ text ∈ texts, Single text) :
    Single (String.join texts) := by
  intro member
  rw [String.toList_join] at member
  obtain ⟨text, listed, inside⟩ := List.mem_flatMap.mp member
  exact each text listed inside

theorem intercalate {separator : String} {texts : List String} (single : Single separator)
    (each : ∀ text ∈ texts, Single text) : Single (separator.intercalate texts) := by
  induction texts with
  | nil => exact List.not_mem_nil
  | cons first others ih =>
    obtain ⟨here, later⟩ := List.forall_mem_cons.mp each
    cases others with
    | nil => rwa [String.intercalate_singleton]
    | cons second others =>
      rw [String.intercalate_cons_cons]
      exact append.mpr ⟨append.mpr ⟨here, single⟩, ih later⟩

end Single

/-! ### Literals and types -/

@[simp] theorem single_escape (content : List UInt8) : Single (escape content) := by
  intro member
  have printable := isPrintable_of_mem_escape content _ member
  exact absurd printable (by decide)

@[simp] theorem single_upperHex (count value : Nat) : Single (upperHex count value) := by
  intro member
  rw [upperHex, String.toList_ofList] at member
  obtain ⟨digit, inside, upper⟩ := List.mem_map.mp member
  delta Char.toUpper at upper
  split at upper
  case isTrue lower =>
    -- an upper-case letter comes long after a line feed
    have value := Char.ext_iff.mp upper
    grind
  case isFalse =>
    exact lineFeed_not_mem_padded _ _ _ (upper ▸ inside)

end Text

namespace Literal

theorem single_text (literal : Literal) : Text.Single literal.text := by
  cases literal with
  | int width value inRange => exact Text.Single.repr value
  | float format bits => simp +decide [text]
  | bytes content => simp +decide [text]

end Literal

mutual

theorem Ty.single_text : (type : Ty) → Text.Single type.text
  | .int width => by simp +decide [Ty.text]
  | .float .single => by decide
  | .float .double => by decide
  | .pointer element => by simp +decide [Ty.text, Ty.single_text element]
  | .array length element => by simp +decide [Ty.text, Ty.single_text element]
  | .struct packed fields => by
    cases packed <;> simp +decide [Ty.text, Ty.single_fieldsText fields]
  | .function result parameters variadic => by
    cases variadic <;> simp +decide [Ty.text, Ty.single_text result,
      Ty.single_openText parameters, Ty.single_fieldsText parameters]
  | .label => by decide
  | .void => by decide

theorem Ty.single_fieldsText : (types : List Ty) → Text.Single (Ty.fieldsText types)
  | [] => by decide
  | [type] => by simpa only [Ty.fieldsText] using Ty.single_text type
  | type :: other :: types => by
    simp +decide [Ty.fieldsText, Ty.single_text type, Ty.single_fieldsText (other :: types)]

theorem Ty.single_openText : (types : List Ty) → Text.Single (Ty.openText types)
  | [] => by decide
  | type :: types => by
    simp +decide [Ty.openText, Ty.single_text type, Ty.single_openText types]

end

end SsaAmd64
