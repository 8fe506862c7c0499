/-
**Programs as they are written.**

A line of a program whose names are words is written as one line of text, which is no comment. A
comment is written behind a number sign, but its text may have further lines. So deleting the
comments of a written program leaves what is written without them, unless a further line of a
comment is no comment itself.

* `Asm.withoutComments`: the lines of a program that are no comments;
* `Asm.Line.IsTidy`: a line whose names are words;
* `Asm.eraseComments_render_iff`: deleting comments before or after writing.
-/

import SsaAmd64.Asm.Text
import SsaAmd64.Lowering.Symbols
import SsaAmd64.Proofs.Lowering.Outcome
import SsaAmd64.Proofs.Text.Lines

namespace SsaAmd64

namespace Asm

/-! ### Words -/

/-- A name of letters, digits and the few other characters that identifiers have. -/
def IsWord (name : String) : Prop :=
  name.toList.all continuesIdentifier = true

instance (name : String) : Decidable (IsWord name) :=
  inferInstanceAs (Decidable (name.toList.all continuesIdentifier = true))

namespace IsWord

variable {name : String} {first second : String}

theorem append : IsWord (first ++ second) ↔ IsWord first ∧ IsWord second := by
  rw [IsWord, String.toList_append, List.all_append, Bool.and_eq_true]
  rfl

theorem nat (number : Nat) : IsWord (toString number) := by
  refine List.all_eq_true.mpr fun char member => ?_
  rw [Nat.toString_eq_repr, Nat.toList_repr] at member
  rw [continuesIdentifier, Nat.isDigit_of_mem_toDigits (by decide) (by decide) member,
    Bool.or_true]

theorem of_isIdentifier (accepted : isIdentifier name = true) : IsWord name := by
  rw [isIdentifier] at accepted
  rw [IsWord]
  split at accepted
  case h_1 => cases accepted
  case h_2 first others spelled =>
    obtain ⟨starts, continue'⟩ := Bool.and_eq_true_iff.mp accepted
    rw [spelled, List.all_cons, continuesIdentifier, starts, continue']
    rfl

theorem single (word : IsWord name) : Text.Single name :=
  .of_all rfl word

theorem visible {char : Char} (continue' : continuesIdentifier char = true) :
    char.isWhitespace = false := by
  rw [Bool.eq_false_iff]
  intro blank
  simp only [Char.isWhitespace, Bool.or_eq_true, decide_eq_true_eq] at blank
  obtain ((rfl | rfl) | rfl) | rfl := blank <;> cases continue'

/-- A word and a colon are no comment. -/
theorem isComment_eq_false (word : IsWord name) : Text.isComment (name ++ ":").toList = false := by
  rw [String.toList_append]
  cases spelled : name.toList with
  | nil => decide
  | cons first others =>
    have continue' : continuesIdentifier first = true := by
      rw [IsWord, spelled] at word
      exact List.all_eq_true.mp word first List.mem_cons_self
    rw [List.cons_append, Text.isComment_cons (visible continue')]
    refine beq_false_of_ne fun sign => ?_
    rw [sign] at continue'
    cases continue'

end IsWord

/-! ### Lines -/

/-- The directives that open a section. -/
def sections : List String :=
  [".data", ".text", ".section .note.GNU-stack,\"\",@progbits"]

namespace Line

def isComment : Line → Bool
  | comment _ => true
  | _ => false

/-- **A line that is no comment, names words only and opens no other section.** -/
structure IsTidy (line : Line) : Prop where
  program : line.isComment = false
  words : ∀ name ∈ line.names, IsWord name
  opens : ∀ text, line = .directive text → text ∈ sections

/-- A line that carries neither a name nor a text. -/
def isMute : Line → Bool
  | directive _ | comment _ => false
  | line => line.names.isEmpty

theorem IsTidy.of_isMute {line : Line} (mute : line.isMute = true) : line.IsTidy := by
  refine ⟨?_, fun name member => ?_, ?_⟩
  · cases line <;> first | rfl | cases mute
  · have none : line.names = [] := by
      cases line <;> first | exact List.isEmpty_iff.mp mute | cases mute
    rw [none] at member
    cases member
  · rintro text rfl
    cases mute

theorem IsTidy.of_section {text : String} (known : text ∈ sections) : (directive text).IsTidy :=
  ⟨rfl, nofun, fun _ same => directive.inj same ▸ known⟩

/-- What stands before the text of a line. -/
def indentation : Line → String
  | label _ => ""
  | _ => "    "

theorem indentation_mem (line : Line) : line.indentation ∈ ["", "    "] := by
  cases line <;> simp [indentation]

theorem rendered_eq (line : Line) : line.rendered = line.indentation ++ line.text ++ "\n" := by
  cases line <;> rfl

/-- The lines of text that a line is written as. -/
def parts (line : Line) : List (List Char) :=
  Text.lines (line.indentation ++ line.text)

end Line

end Asm

/-! ### The text of a line -/

namespace Asm

open Text (Single)

@[simp] theorem Register.single_name (register : Register) (width : Width) :
    Single (register.name width) := by
  cases register with
  | xmm number => exact Single.append.mpr ⟨by decide, .repr number⟩
  | _ => cases width <;> decide

@[simp] theorem Register.single_text (register : Register) : Single register.text :=
  Single.append.mpr ⟨by decide, register.single_name .quad⟩

@[simp] theorem Width.single_suffix (width : Width) : Single width.suffix := by
  cases width <;> decide

@[simp] theorem Width.single_dataDirective (width : Width) : Single width.dataDirective := by
  cases width <;> decide

@[simp] theorem Condition.single_suffix (condition : Condition) : Single condition.suffix := by
  cases condition <;> decide

@[simp] theorem Arithmetic.single_mnemonic (operation : Arithmetic) : Single operation.mnemonic := by
  cases operation <;> decide

@[simp] theorem Shift.single_mnemonic (operation : Shift) : Single operation.mnemonic := by
  cases operation <;> decide

@[simp] theorem VectorConversion.single_mnemonic (operation : VectorConversion) :
    Single operation.mnemonic := by
  cases operation <;> decide

theorem Operand.single_text {operand : Operand} (single : ∀ name ∈ operand.names, Single name) :
    Single operand.text := by
  cases operand with
  | register register width => simp +decide [text]
  | immediate value => simp +decide [text]
  | memory base displacement =>
    rw [text]
    split <;> simp +decide
  | relative symbol => simp +decide [text, single symbol (List.mem_singleton.mpr rfl)]

theorem single_extendText {source : Operand} (single : Single source.text) (signed : Bool)
    (width : Width) (target : Register) : Single (extendText signed width source target) := by
  cases signed <;> cases width <;> simp +decide [extendText, single]

namespace Line

variable {line : Line}

/-- **A tidy line is written as a single line.** -/
theorem IsTidy.single (tidy : line.IsTidy) : Single line.text := by
  have single : ∀ name ∈ line.names, Single name := fun name member => (tidy.words name member).single
  cases line with
  | comment text => cases tidy.program
  | directive text =>
    have each : ∀ text ∈ sections, Single text := by decide
    exact each text (tidy.opens text rfl)
  | globl name | functionType name | label name | address name | jump name | jumpIf _ name | call name =>
    simp +decide [text, single name (List.mem_singleton.mpr rfl)]
  | mov width source target | arithmetic operation width source target =>
    have first := Operand.single_text fun name member => single name (List.mem_append_left _ member)
    have second := Operand.single_text fun name member => single name (List.mem_append_right _ member)
    simp +decide [text, first, second]
  | extend signed width source target => exact single_extendText (Operand.single_text single) _ _ _
  | lea source target => simp +decide [text, Operand.single_text single]
  | divide signed width source =>
    cases signed <;> simp +decide [text, Operand.single_text single]
  | bytes content =>
    have each : ∀ text ∈ content.map fun byte => toString byte.toNat, Single text := by
      intro text member
      obtain ⟨byte, _, rfl⟩ := List.mem_map.mp member
      exact .repr byte.toNat
    exact Single.append.mpr ⟨by decide, .intercalate (by decide) each⟩
  | _ => simp +decide [text]

/-- A line that is indented starts with a directive or a mnemonic. -/
theorem IsTidy.exists_head (tidy : line.IsTidy) (inner : line.definedLabel? = none) :
    ∃ first others, line.text.toList = first :: others ∧ (first.isLower || first == '.') = true := by
  have head : line.text.toList.head?.any (fun first => first.isLower || first == '.') = true := by
    cases line with
    | comment text => cases tidy.program
    | label name => cases inner
    | directive text =>
      have each : ∀ text ∈ sections,
          text.toList.head?.any (fun first => first.isLower || first == '.') = true := by
        decide
      exact each text (tidy.opens text rfl)
    | data width value => cases width <;> simp [text, Width.dataDirective]
    | extend signed width source target =>
      cases signed <;> cases width <;> simp [text, extendText]
    | arithmetic operation width source target =>
      cases operation <;> simp [text, Arithmetic.mnemonic]
    | shift operation width target => cases operation <;> simp [text, Shift.mnemonic]
    | divide signed width source => cases signed <;> simp [text]
    | vector operation source target => cases operation <;> simp [text, VectorConversion.mnemonic]
    | _ => simp [text]
  cases spelled : line.text.toList with
  | nil =>
    rw [spelled] at head
    cases head
  | cons first others =>
    rw [spelled] at head
    exact ⟨first, others, rfl, head⟩

/-- **A tidy line is not written as a comment.** -/
theorem IsTidy.visible (tidy : line.IsTidy) :
    Text.isComment (line.indentation ++ line.text).toList = false := by
  rw [String.toList_append]
  cases inner : line.definedLabel? with
  | some name =>
    cases line with
    | label name => exact (tidy.words name (List.mem_singleton.mpr rfl)).isComment_eq_false
    | _ => cases inner
  | none =>
    have blank : ∀ text ∈ ["", "    "], text.toList.all Char.isWhitespace = true := by decide
    obtain ⟨first, others, spelled, starts⟩ := tidy.exists_head inner
    have visible : first.isWhitespace = false := by
      rw [Bool.eq_false_iff]
      intro blank
      simp only [Char.isWhitespace, Bool.or_eq_true, decide_eq_true_eq] at blank
      obtain ((rfl | rfl) | rfl) | rfl := blank <;> cases starts
    rw [Text.isComment_append (blank _ line.indentation_mem), spelled, Text.isComment_cons visible]
    refine beq_false_of_ne fun sign => ?_
    rw [sign] at starts
    cases starts

/-- The lines of a text behind the first that are no comments. -/
def stray (text : String) : List (List Char) :=
  (Text.lines text).tail.filter fun line => !Text.isComment line

theorem IsTidy.filter_parts (tidy : line.IsTidy) :
    line.parts.filter (fun line => !Text.isComment line) = line.parts := by
  have indented : ∀ text ∈ ["", "    "], Single text := by decide
  rw [parts, (Single.append.mpr ⟨indented _ line.indentation_mem, tidy.single⟩).lines_eq, List.filter_singleton,
    tidy.visible]
  rfl

/-- Of a comment, what is left are the stray lines of its text. -/
theorem filter_parts_comment (text : String) :
    (comment text).parts.filter (fun line => !Text.isComment line) = stray text := by
  have front : (((comment text).indentation ++ (comment text).text)).toList =
      "    # ".toList ++ text.toList := by
    have joined : "    ".toList ++ "# ".toList = "    # ".toList := by decide
    rw [← joined, String.toList_append, Line.text, String.toList_append, ← List.append_assoc]
    rfl
  have sign : ∀ back, Text.isComment ("    # ".toList ++ back) = true := fun back => rfl
  rw [parts, Text.lines, front, Text.splitOn_append (by decide), stray, Text.lines]
  obtain ⟨first, others, cut⟩ := List.exists_cons_of_ne_nil (List.splitOn_ne_nil '\n' text.toList)
  rw [cut, List.modifyHead_cons, List.tail_cons, List.filter_cons_of_neg]
  rw [sign]
  decide

end Line

/-! ### Programs -/

/-- **A program without its comments.** -/
def withoutComments (lines : List Line) : List Line :=
  lines.filter fun line => !line.isComment

variable {lines : List Line}

theorem lines_render (lines : List Line) :
    Text.lines (render lines) = lines.flatMap Line.parts ++ [[]] := by
  induction lines with
  | nil => rfl
  | cons line lines ih =>
    have first : render (line :: lines) = line.indentation ++ line.text ++ "\n" ++ render lines := by
      rw [← Line.rendered_eq]
      simp [render, String.join_cons]
    rw [first, Text.lines_closed, ih, List.flatMap_cons, List.append_assoc]
    rfl

/-- What is left of each line of a program, of comments too. -/
def remains (line : Line) : List (List Char) :=
  line.parts.filter fun line => !Text.isComment line

theorem length_remains (tidy : ∀ line ∈ withoutComments lines, line.IsTidy) :
    ((withoutComments lines).flatMap Line.parts).length ≤ (lines.flatMap remains).length := by
  induction lines with
  | nil => exact Nat.le_refl _
  | cons line lines ih =>
    rw [withoutComments, List.filter_cons] at tidy ⊢
    split at tidy
    case isTrue program =>
      obtain ⟨here, later⟩ := List.forall_mem_cons.mp tidy
      rw [if_pos program, List.flatMap_cons, List.flatMap_cons, remains, here.filter_parts,
        List.length_append, List.length_append]
      exact Nat.add_le_add_left (ih later) _
    case isFalse comment =>
      rw [if_neg comment, List.flatMap_cons, List.length_append]
      exact Nat.le_trans (ih tidy) (Nat.le_add_left _ _)

/-- The remains of a program are those of its other lines, if its comments leave nothing. -/
theorem remains_eq_iff (tidy : ∀ line ∈ withoutComments lines, line.IsTidy) :
    lines.flatMap remains = (withoutComments lines).flatMap Line.parts ↔
      ∀ text, .comment text ∈ lines → Line.stray text = [] := by
  induction lines with
  | nil => exact ⟨fun _ _ => nofun, fun _ => rfl⟩
  | cons line lines ih =>
    rw [withoutComments, List.filter_cons] at tidy ⊢
    split at tidy
    case isTrue program =>
      obtain ⟨here, later⟩ := List.forall_mem_cons.mp tidy
      rw [if_pos program, List.flatMap_cons, List.flatMap_cons, remains, here.filter_parts,
        List.append_cancel_left_eq]
      refine (ih later).trans ⟨fun all text member => ?_, fun all text member => ?_⟩
      · rcases List.mem_cons.mp member with rfl | inside
        · cases program
        · exact all text inside
      · exact all text (List.mem_cons_of_mem _ member)
    case isFalse comment =>
      cases line with
      | comment text =>
        rw [if_neg comment, List.flatMap_cons, remains, Line.filter_parts_comment]
        constructor
        · -- the remains of the other lines are long enough on their own
          intro same
          have lengths := congrArg List.length same
          rw [List.length_append] at lengths
          have least := length_remains tidy
          have none : Line.stray text = [] := List.eq_nil_of_length_eq_zero (by
            rw [withoutComments] at least
            omega)
          rw [none, List.nil_append] at same
          intro other member
          rcases List.mem_cons.mp member with this | inside
          · rw [Line.comment.inj this, none]
          · exact (ih tidy).mp same other inside
        · intro all
          rw [all text List.mem_cons_self, List.nil_append]
          exact (ih tidy).mpr fun other member => all other (List.mem_cons_of_mem _ member)
      | _ => exact absurd rfl comment

/-- **Deleting comments from the text of a program gives what is written without them**, exactly if
no comment has a line that is no comment. -/
theorem eraseComments_render_iff (tidy : ∀ line ∈ withoutComments lines, line.IsTidy) :
    Text.eraseComments (render lines) = render (withoutComments lines) ↔
      ∀ text, .comment text ∈ lines → Line.stray text = [] := by
  have left : (Text.lines (render lines)).filter (fun line => !Text.isComment line) =
      lines.flatMap remains ++ [[]] := by
    rw [lines_render, List.filter_append, List.filter_flatMap]
    rfl
  rw [Text.eraseComments_eq_iff (by rw [left]; exact List.append_ne_nil_of_right_ne_nil _ (by decide)),
    left, lines_render, List.append_cancel_right_eq, remains_eq_iff tidy]

end Asm

end SsaAmd64
