/-
**Comments do not change a program.**

With comments, a program has the lines that it has without, and the lines of its module as comments
among them. Whether there is a program at all, and why not, is the same. Deleting the comments from
its text gives the text without them as long as each comment stays on its line; but a comment repeats
names as they are given, and a name may hold a line feed.

* `Lowering.Spelled`: a lowering whose symbols and labels are words;
* `Lowering.silences_instructions`, `Lowering.silences_lines`: code without its comments;
* `Module.assemble_silent`: a program without its comments;
* `Module.compile_comments`: what deleting the comments of a program leaves.
-/

import SsaAmd64.Proofs.Ir.SingleLines
import SsaAmd64.Proofs.Lowering.Labels
import SsaAmd64.Proofs.Lowering.Renaming

namespace SsaAmd64

open Asm

/-! ### Names in programs -/

theorem Platform.word_labelPrefix (platform : Platform) : IsWord platform.labelPrefix := by
  cases platform <;> decide

theorem Platform.word_symbolPrefix (platform : Platform) : IsWord platform.symbolPrefix := by
  cases platform <;> decide

theorem Platform.word_label (platform : Platform) (number : Nat) : IsWord (platform.label number) :=
  IsWord.append.mpr ⟨platform.word_labelPrefix, .nat number⟩

/-- **Symbols are words.** -/
theorem Symbols.word_symbol {printer : Printer} {platform : Platform} {symbols : Symbols}
    (named : Symbols.of printer platform = .ok symbols) (id : ValueId) :
    IsWord (symbols.symbol id) := by
  rw [Symbols.symbol]
  cases found : symbols.names.lookup id with
  | none => exact (rfl : IsWord "")
  | some symbol =>
    obtain ⟨before, after, listed, _⟩ := List.lookup_eq_some_iff.mp found
    have member : (id, symbol) ∈ symbols.names :=
      listed ▸ List.mem_append_right _ List.mem_cons_self
    have issued : Issued printer platform id symbol := (issues_of named).issued (List.forall_mem_nil _) _ member
    show IsWord symbol
    rcases issued with ⟨accepted, rfl⟩ | ⟨_, position, rfl⟩
    · exact IsWord.append.mpr ⟨platform.word_symbolPrefix, .of_isIdentifier accepted⟩
    · exact IsWord.append.mpr
        ⟨IsWord.append.mpr ⟨platform.word_labelPrefix, by decide⟩, .nat position⟩

namespace Asm

variable {first second lines : List Line}

/-- **Lines that are tidy**, and so no comments. -/
def Tidy (lines : List Line) : Prop :=
  ∀ line ∈ lines, line.IsTidy

theorem tidy_nil : Tidy [] :=
  fun _ member => (nomatch member)

theorem tidy_append : Tidy (first ++ second) ↔ Tidy first ∧ Tidy second :=
  List.forall_mem_append

theorem tidy_cons {line : Line} : Tidy (line :: lines) ↔ line.IsTidy ∧ Tidy lines :=
  List.forall_mem_cons

theorem tidy_of_mute (lines : List Line) (mute : lines.all Line.isMute = true) : Tidy lines :=
  fun line member => .of_isMute (List.all_eq_true.mp mute line member)

/-- A line that carries a single name, and no text. -/
theorem tidy_of_name {line : Line} {name : String} (program : line.isComment = false)
    (names : line.names = [name]) (word : IsWord name) : Tidy [line] := by
  refine List.forall_mem_singleton.mpr ⟨program, fun other member => ?_, ?_⟩
  · rw [names] at member
    exact List.mem_singleton.mp member ▸ word
  · rintro text rfl
    cases names

theorem withoutComments_append (first second : List Line) :
    withoutComments (first ++ second) = withoutComments first ++ withoutComments second :=
  List.filter_append ..

theorem Tidy.withoutComments_eq (tidy : Tidy lines) : withoutComments lines = lines :=
  List.filter_eq_self.mpr fun line member => by rw [(tidy line member).program]; rfl

end Asm

/-- **A line of a program with comments**: a tidy line, or a line of the module as a comment. -/
inductive Asm.Line.Echo (printer : Printer) : Line → Prop
  | tidy {line : Line} : line.IsTidy → Echo printer line
  | line (id : ValueId) : Echo printer (.comment (printer.line id))
  | signature (id : ValueId) : Echo printer (.comment (printer.signatureLine id))
  | global (id : ValueId) : Echo printer (.comment (printer.globalLine id))

/-- **Tidy lines, with lines of the module as comments among them.** -/
def Printer.Echoes (printer : Printer) (lines : List Line) : Prop :=
  ∀ line ∈ lines, line.Echo printer

namespace Printer.Echoes

variable {printer : Printer} {first second lines : List Line}

theorem of_tidy (tidy : Tidy lines) : printer.Echoes lines :=
  fun line member => .tidy (tidy line member)

theorem append : printer.Echoes (first ++ second) ↔ printer.Echoes first ∧ printer.Echoes second :=
  List.forall_mem_append

theorem comment {text : String} (echo : (Line.comment text).Echo printer) (comments : Bool) :
    printer.Echoes (Lowering.comment comments text) := by
  cases comments
  · exact fun _ member => (nomatch member)
  · exact List.forall_mem_singleton.mpr echo

/-- Without its comments, a program is tidy. -/
theorem tidy (echoes : printer.Echoes lines) : Tidy (withoutComments lines) := by
  intro line member
  obtain ⟨listed, program⟩ := List.mem_filter.mp member
  cases echoes line listed with
  | tidy tidy => exact tidy
  | _ => cases program

end Printer.Echoes

namespace Lowering

theorem withoutComments_comment (comments : Bool) (text : String) :
    withoutComments (comment comments text) = [] := by
  cases comments <;> rfl

variable {lowering : Lowering} {rules : Nat → StoreRule} {rule : StoreRule} {block id : ValueId}
variable {next after last : Nat} {lines body : List Line}

/-- **A lowering whose symbols and labels are words.** -/
structure Spelled (lowering : Lowering) : Prop where
  symbol : ∀ id, IsWord (lowering.symbols.symbol id)
  label : ∀ block, IsWord (lowering.label block)

/-! ### Pieces of code -/

theorem IsPlain.tidy {line : Line} (plain : lowering.IsPlain rule line) (spelled : lowering.Spelled) :
    line.IsTidy := by
  refine ⟨?_, fun name member => ?_, ?_⟩
  · cases line <;> first | rfl | cases plain.plain
  · obtain ⟨id, rfl⟩ := plain.symbol name member
    exact spelled.symbol id
  · rintro text rfl
    cases plain.plain

theorem Plain.tidy (plain : lowering.Plain rule lines) (spelled : lowering.Spelled) : Tidy lines :=
  fun line member => (plain line member).tidy spelled

theorem tidy_adjustStack (operation : Arithmetic) (size : Nat) : Tidy (adjustStack operation size) := by
  rw [adjustStack]
  split
  · exact tidy_nil
  · exact tidy_of_mute _ rfl

theorem tidy_epilogue : Tidy epilogue :=
  tidy_of_mute _ rfl

theorem tidy_prologue (lowering : Lowering) : Tidy lowering.prologue := by
  rw [prologue]
  refine tidy_append.mpr ⟨tidy_append.mpr ⟨tidy_of_mute _ rfl, tidy_adjustStack _ _⟩, ?_⟩
  split
  · exact tidy_of_mute _ rfl
  · exact tidy_nil

theorem Edge.tidy (edge : lowering.Edge rules id lines) (spelled : lowering.Spelled) : Tidy lines := by
  cases edge with
  | jump assigning leads =>
    refine tidy_append.mpr ⟨?_, tidy_of_name rfl rfl (spelled.label _)⟩
    cases assigning with
    | direct plain => exact plain.tidy spelled
    | staged reserves plain =>
      exact tidy_append.mpr ⟨tidy_cons.mpr ⟨.of_isMute rfl, plain.tidy spelled⟩, tidy_of_mute _ rfl⟩

/-- **The code of an instruction is tidy.** -/
theorem Shape.tidy {ends : Bool} (shape : lowering.Shape rules id next ends lines after)
    (spelled : lowering.Spelled) : Tidy lines := by
  cases shape with
  | plain plain => exact plain.tidy spelled
  | call callee reserves placed stored =>
    refine tidy_append.mpr ⟨tidy_append.mpr ⟨tidy_append.mpr ⟨tidy_append.mpr
      ⟨tidy_adjustStack _ _, placed.tidy spelled⟩, ?_⟩, tidy_adjustStack _ _⟩, stored.tidy spelled⟩
    exact tidy_of_name rfl rfl (spelled.symbol callee)
  | branch edge => exact edge.tidy spelled
  | branchIf test leads edge =>
    refine tidy_append.mpr ⟨test.tidy spelled, ?_⟩
    exact tidy_append.mpr ⟨tidy_of_name rfl rfl (spelled.label _), edge.tidy spelled⟩
  | branchBoth test ifFalse ifTrue =>
    have word := lowering.options.platform.word_label next
    refine tidy_append.mpr ⟨tidy_append.mpr ⟨test.tidy spelled, ?_⟩, ?_⟩
    · exact tidy_append.mpr ⟨tidy_of_name rfl rfl word, ifFalse.tidy spelled⟩
    · exact tidy_append.mpr ⟨tidy_of_name rfl rfl word, ifTrue.tidy spelled⟩
  | ret plain => exact tidy_append.mpr ⟨plain.tidy spelled, tidy_epilogue⟩
  | trap => exact tidy_of_mute _ rfl

theorem tidy_saveParameters (spelled : lowering.Spelled) :
    Ensures Tidy lowering.saveParameters := fun _ made =>
  ((fair_of_all lowering).saveParameters _ made).tidy spelled

theorem echoes_header (spelled : lowering.Spelled) : lowering.printer.Echoes lowering.header := by
  have word := spelled.symbol lowering.function
  have tidy : Tidy (if lowering.options.platform.isElf then
      [.functionType (lowering.symbols.symbol lowering.function)] else []) := by
    split
    · exact tidy_of_name rfl rfl word
    · exact tidy_nil
  refine Printer.Echoes.append.mpr ⟨Printer.Echoes.append.mpr ⟨Printer.Echoes.append.mpr
    ⟨.comment (.signature _) _, .of_tidy ?_⟩, .of_tidy tidy⟩, .of_tidy (tidy_of_name rfl rfl word)⟩
  exact tidy_append.mpr ⟨tidy_of_name rfl rfl word, tidy_of_mute [.alignCode 16] rfl⟩

/-! ### Functions without comments -/

/-- The same code to be made, without comments. -/
def silent (lowering : Lowering) : Lowering :=
  lowering.reprint lowering.printer false

/-- **What is made without comments is what is made with them, less the comments.** And the comments
are lines of the module. -/
def Silences (printer : Printer) (loud quiet : Except Failure (List Line × Nat)) : Prop :=
  quiet = loud.map (fun made => (withoutComments made.1, made.2)) ∧
    Ensures (fun made => printer.Echoes made.1) loud

variable {printer : Printer}

theorem silences_error (failure : Failure) : Silences printer (.error failure) (.error failure) :=
  ⟨rfl, .of_error⟩

theorem silences_ok (echoes : printer.Echoes lines) (same : withoutComments lines = body) :
    Silences printer (.ok (lines, next)) (.ok (body, next)) :=
  ⟨same ▸ rfl, .of_ok echoes⟩

/-- What follows on silenced code. -/
theorem Silences.bind {loud quiet : Except Failure (List Line × Nat)}
    {rest rest' : List Line × Nat → Except Failure (List Line × Nat)}
    (first : Silences printer loud quiet)
    (second : ∀ lines next, printer.Echoes lines →
      Silences printer (rest (lines, next)) (rest' (withoutComments lines, next))) :
    Silences printer (loud.bind rest) (quiet.bind rest') := by
  obtain ⟨rfl, echoes⟩ := first
  cases loud with
  | error failure => exact silences_error failure
  | ok made => exact second made.1 made.2 (echoes _ rfl)

theorem silences_instructions (spelled : lowering.Spelled) (next : Nat) {block : ValueId}
    {ids : List ValueId} (inside : block ∈ lowering.subject.blocksOf lowering.function)
    (listed : ids ⊆ lowering.subject.instructionsOf block) :
    Silences lowering.printer (lowering.instructions next block ids)
      (lowering.silent.instructions next block ids) := by
  induction ids generalizing next with
  | nil => exact silences_ok (.of_tidy tidy_nil) rfl
  | cons id ids ih =>
    obtain ⟨first, others⟩ := List.cons_subset.mp listed
    rw [instructions, instructions, silent, instruction_reprint (.refl lowering.subject)]
    cases here : lowering.instruction next block id with
    | error failure => exact silences_error failure
    | ok made =>
      have tidy := ((fair_of_all lowering).shape_instruction inside first _ here).tidy spelled
      refine (ih made.2 others).bind fun rest last echoes => silences_ok
        (Printer.Echoes.append.mpr ⟨Printer.Echoes.append.mpr
          ⟨.comment (.line id) _, .of_tidy tidy⟩, echoes⟩) ?_
      rw [withoutComments_append, withoutComments_append, withoutComments_comment,
        tidy.withoutComments_eq]
      rfl

theorem silences_blocks (spelled : lowering.Spelled) (next : Nat) {blocks : List ValueId}
    (inside : ∀ block ∈ blocks, block ∈ lowering.subject.blocksOf lowering.function) :
    Silences lowering.printer (lowering.blocks next blocks) (lowering.silent.blocks next blocks) := by
  induction blocks generalizing next with
  | nil => exact silences_ok (.of_tidy tidy_nil) rfl
  | cons block blocks ih =>
    obtain ⟨first, others⟩ := List.forall_mem_cons.mp inside
    have inner := silences_instructions spelled next first (List.Subset.refl _)
    have label : Tidy [.label (lowering.label block)] := tidy_of_name rfl rfl (spelled.label block)
    rw [Lowering.blocks, Lowering.blocks]
    refine inner.bind fun lines after echoes => ?_
    refine (ih after others).bind fun rest last echoes' => silences_ok ?_ (withoutComments_append _ rest)
    exact Printer.Echoes.append.mpr
      ⟨Printer.Echoes.append.mpr ⟨.of_tidy label, echoes⟩, echoes'⟩

theorem header_silent (lowering : Lowering) :
    lowering.silent.header = withoutComments lowering.header := by
  rw [header, header, withoutComments_append, withoutComments_append, withoutComments_append,
    withoutComments_comment]
  show _ ++ (if lowering.options.platform.isElf then _ else _) ++ _ = _
  split <;> rfl

/-- **The code of a function without its comments.** -/
theorem silences_lines (spelled : lowering.Spelled) (next : Nat) :
    Silences lowering.printer (lowering.lines next) (lowering.silent.lines next) := by
  have blocks := silences_blocks spelled next fun _ member => member
  have header := header_silent lowering
  rw [Lowering.lines, Lowering.lines, header, silent, saveParameters_reprint (.refl lowering.subject)]
  cases saved : lowering.saveParameters with
  | error failure => exact silences_error failure
  | ok moves =>
    have prologue := tidy_prologue lowering
    have parameters := tidy_saveParameters spelled moves saved
    refine blocks.bind fun body last echoes => silences_ok
      (Printer.Echoes.append.mpr ⟨Printer.Echoes.append.mpr ⟨Printer.Echoes.append.mpr
        ⟨echoes_header spelled, .of_tidy prologue⟩, .of_tidy parameters⟩, echoes⟩) ?_
    rw [withoutComments_append, withoutComments_append, withoutComments_append,
      parameters.withoutComments_eq, prologue.withoutComments_eq]
    rfl

/-- Labels are words as long as symbols are. -/
theorem spelled_of_made {printer : Printer} {options : Options} {symbols : Symbols}
    {function : ValueId} (words : ∀ id, IsWord (symbols.symbol id))
    (made : Lowering.of printer options symbols next function = .ok (lowering, after)) :
    lowering.Spelled := by
  obtain ⟨plan, _, made⟩ := ok_of_bind made
  obtain ⟨frame, _, made⟩ := ok_of_bind made
  cases made
  refine ⟨words, fun block => ?_⟩
  rw [Lowering.label]
  cases found : List.lookup block _ with
  | none => exact (rfl : IsWord "")
  | some label =>
    obtain ⟨before, behind, listed, _⟩ := List.lookup_eq_some_iff.mp found
    have member : (block, label) ∈ before ++ (block, label) :: behind :=
      List.mem_append_right _ List.mem_cons_self
    rw [← listed] at member
    obtain ⟨entry, _, same⟩ := List.mem_map.mp member
    cases same
    exact options.platform.word_label _

/-! ### Programs without comments -/

variable {symbols : Symbols} {options : Options}

theorem functions_silent (printer : Printer) (options : Options)
    (words : ∀ id, IsWord (symbols.symbol id)) (next : Nat) (ids : List ValueId) :
    functions printer { options with comments := false } symbols next ids =
        (functions printer options symbols next ids).map withoutComments ∧
      Ensures printer.Echoes (functions printer options symbols next ids) := by
  induction ids generalizing next with
  | nil => exact ⟨rfl, .of_ok (.of_tidy tidy_nil)⟩
  | cons id ids ih =>
    rw [functions, functions]
    split
    case isTrue => exact ih next
    case isFalse =>
      rw [(Module.Renamed.refl printer.subject).lowering options false]
      cases made : Lowering.of printer options symbols next id with
      | error failure => exact ⟨rfl, .of_error⟩
      | ok result =>
        obtain ⟨lowering, after⟩ := result
        have spelled := spelled_of_made words made
        obtain ⟨rfl, _⟩ := eq_of_made made
        obtain ⟨quiet, echoes⟩ := silences_lines spelled after
        show (lowering.silent.lines after).bind _ = ((lowering.lines after).bind _).map _ ∧
          Ensures _ ((lowering.lines after).bind _)
        rw [quiet]
        cases body : lowering.lines after with
        | error failure => exact ⟨rfl, .of_error⟩
        | ok code =>
          obtain ⟨later, echoes'⟩ := ih code.2
          show (functions lowering.printer { options with comments := false } symbols code.2 ids).bind _ =
            ((functions lowering.printer options symbols code.2 ids).bind _).map _ ∧
              Ensures _ ((functions lowering.printer options symbols code.2 ids).bind _)
          rw [later]
          cases rest : functions lowering.printer options symbols code.2 ids with
          | error failure => exact ⟨rfl, .of_error⟩
          | ok lines =>
            exact ⟨congrArg Except.ok (withoutComments_append _ _).symm, .of_ok
              (Printer.Echoes.append.mpr ⟨echoes _ body, echoes' _ rest⟩)⟩

theorem tidy_initialData (words : ∀ id, IsWord (symbols.symbol id)) {m : Module} {size : Nat}
    (initialiser : Initialiser) : Ensures Tidy (initialData m symbols id size initialiser) := by
  intro lines made line member
  obtain ⟨data, named⟩ := data_initialData symbols initialiser lines made line member
  refine ⟨?_, fun name inside => ?_, ?_⟩
  · cases line <;> first | rfl | cases data
  · obtain ⟨id, rfl⟩ := named name inside
    exact words id
  · rintro text rfl
    cases data

theorem globalData_silent (printer : Printer) (words : ∀ id, IsWord (symbols.symbol id))
    (comments : Bool) (id : ValueId) :
    globalData printer symbols false id =
        (globalData printer symbols comments id).map withoutComments ∧
      Ensures printer.Echoes (globalData printer symbols comments id) := by
  rw [globalData, globalData]
  split
  case h_1 => exact ⟨rfl, .of_ok (.of_tidy tidy_nil)⟩
  case h_2 held found =>
    cases held.storage.extentInCode with
    | error failure => exact ⟨rfl, .of_error⟩
    | ok extent =>
      show (initialData _ symbols id extent.size held.initialiser).bind _ =
        ((initialData _ symbols id extent.size held.initialiser).bind _).map _ ∧
          Ensures _ ((initialData _ symbols id extent.size held.initialiser).bind _)
      cases made : initialData printer.subject symbols id extent.size held.initialiser with
      | error failure => exact ⟨rfl, .of_error⟩
      | ok content =>
        have head : Tidy (if symbols.isLocal id then [] else [.globl (symbols.symbol id)]) := by
          split
          · exact tidy_nil
          · exact tidy_of_name rfl rfl (words id)
        have label : Tidy [.align extent.align, .label (symbols.symbol id)] :=
          tidy_cons.mpr ⟨.of_isMute rfl, tidy_of_name rfl rfl (words id)⟩
        have data := tidy_initialData words held.initialiser content made
        refine ⟨congrArg Except.ok ?_, .of_ok (Printer.Echoes.append.mpr ⟨Printer.Echoes.append.mpr
          ⟨Printer.Echoes.append.mpr ⟨.comment (.global id) _, .of_tidy head⟩, .of_tidy label⟩,
          .of_tidy data⟩)⟩
        rw [withoutComments_append, withoutComments_append, withoutComments_append,
          withoutComments_comment, head.withoutComments_eq, label.withoutComments_eq,
          data.withoutComments_eq]
        rfl

theorem dataSection_silent (printer : Printer) (words : ∀ id, IsWord (symbols.symbol id))
    (comments : Bool) :
    dataSection printer symbols false = (dataSection printer symbols comments).map withoutComments ∧
      Ensures printer.Echoes (dataSection printer symbols comments) := by
  have parts : ∀ ids : List ValueId, ids.mapM (globalData printer symbols false) =
      (ids.mapM (globalData printer symbols comments)).map (List.map withoutComments) := by
    intro ids
    induction ids with
    | nil => rfl
    | cons id ids ih =>
      rw [List.mapM_cons, List.mapM_cons, ih, (globalData_silent printer words comments id).1]
      cases globalData printer symbols comments id with
      | error failure => rfl
      | ok part => cases ids.mapM (globalData printer symbols comments) <;> rfl
  rw [dataSection, dataSection]
  split
  case h_1 => exact ⟨rfl, .of_ok (.of_tidy tidy_nil)⟩
  case h_2 =>
    rw [parts]
    cases made : printer.subject.globals.mapM (globalData printer symbols comments) with
    | error failure => exact ⟨rfl, .of_error⟩
    | ok parts =>
      have echoes := Ensures.mapM (fun id _ => (globalData_silent printer words comments id).2) parts made
      have same : withoutComments (.directive ".data" :: parts.flatten) =
          .directive ".data" :: (parts.map withoutComments).flatten :=
        congrArg (List.cons (Line.directive ".data")) List.filter_flatten
      refine ⟨congrArg Except.ok same.symm, .of_ok (List.forall_mem_cons.mpr
        ⟨.tidy (.of_section List.mem_cons_self), fun line member => ?_⟩)⟩
      obtain ⟨part, listed, inside⟩ := List.mem_flatten.mp member
      exact echoes part listed line inside

theorem tidy_footer (platform : Platform) : Tidy (footer platform) := by
  rw [footer]
  split
  · exact tidy_cons.mpr ⟨.of_section (by decide), tidy_nil⟩
  · exact tidy_nil

end Lowering

namespace Module

variable {m : Module} {options : Options} {program : List Line}

/-- **A program without its comments is the program that is made without comments.** -/
theorem assemble_silent (m : Module) (options : Options) :
    m.assemble { options with comments := false } = (m.assemble options).map withoutComments ∧
      Ensures (Printer.of m).Echoes (m.assemble options) := by
  rw [assemble, assemble]
  cases named : Symbols.of (Printer.of m) options.platform with
  | error failure => exact ⟨rfl, .of_error⟩
  | ok symbols =>
    have words := Symbols.word_symbol named
    obtain ⟨data, echoes⟩ :=
      Lowering.dataSection_silent (Printer.of m) words options.comments
    obtain ⟨functions, echoes'⟩ :=
      Lowering.functions_silent (Printer.of m) options words 0 m.functions
    show (Lowering.dataSection _ symbols false).bind _ =
      ((Lowering.dataSection _ symbols options.comments).bind _).map _ ∧
        Ensures _ ((Lowering.dataSection _ symbols options.comments).bind _)
    rw [data]
    cases made : Lowering.dataSection (Printer.of m) symbols options.comments with
    | error failure => exact ⟨rfl, .of_error⟩
    | ok data =>
      show (Lowering.functions _ { options with comments := false } symbols 0 _).bind _ =
        ((Lowering.functions _ options symbols 0 _).bind _).map _ ∧
          Ensures _ ((Lowering.functions _ options symbols 0 _).bind _)
      rw [functions]
      cases code : Lowering.functions (Printer.of m) options symbols 0 m.functions with
      | error failure => exact ⟨rfl, .of_error⟩
      | ok lines =>
        have footer := Lowering.tidy_footer options.platform
        have open' : Tidy [.directive ".text"] := tidy_cons.mpr ⟨.of_section (by decide), tidy_nil⟩
        refine ⟨congrArg Except.ok ?_, .of_ok (Printer.Echoes.append.mpr ⟨Printer.Echoes.append.mpr
          ⟨Printer.Echoes.append.mpr ⟨echoes _ made, .of_tidy open'⟩, echoes' _ code⟩,
          .of_tidy footer⟩)⟩
        rw [withoutComments_append, withoutComments_append, withoutComments_append,
          footer.withoutComments_eq]
        rfl

/-- The same of a program that is made once its module has been validated. -/
theorem compile_silent (m : Module) (options : Options) :
    m.compile { options with comments := false } = (m.compile options).map withoutComments ∧
      Ensures (Printer.of m).Echoes (m.compile options) := by
  obtain ⟨silent, echoes⟩ := assemble_silent m options
  rw [compile, compile, silent]
  cases m.validate.mapError Failure.invalid with
  | error failure => exact ⟨rfl, .of_error⟩
  | ok _ => exact ⟨rfl, echoes⟩

/-- **Comments do not change a program**: it is made with them exactly if it is made without, and
apart from them it has the same lines. Deleting the comments of its text gives the text without them
exactly if no comment goes on behind a line feed; so it does if no name holds one. -/
theorem compile_comments (m : Module) (platform : Platform) :
    m.compile ⟨platform, false⟩ = (m.compile ⟨platform, true⟩).map withoutComments ∧
      ((∃ program, m.compile ⟨platform, true⟩ = .ok program) ↔
        ∃ program, m.compile ⟨platform, false⟩ = .ok program) ∧
      ∀ loud quiet, m.compile ⟨platform, true⟩ = .ok loud → m.compile ⟨platform, false⟩ = .ok quiet →
        (Text.eraseComments (render loud) = render quiet ↔
          ∀ text, .comment text ∈ loud → Line.stray text = []) ∧
        ((∀ id, Text.Single (m.storedName id)) →
          Text.eraseComments (render loud) = render quiet) := by
  obtain ⟨silent, echoes⟩ := compile_silent m ⟨platform, true⟩
  have silent : m.compile ⟨platform, false⟩ = (m.compile ⟨platform, true⟩).map withoutComments := silent
  refine ⟨silent, ?_, fun loud quiet compiled compiled' => ?_⟩
  · rw [silent]
    cases m.compile ⟨platform, true⟩ with
    | error failure => exact ⟨nofun, nofun⟩
    | ok program => exact ⟨fun _ => ⟨_, rfl⟩, fun _ => ⟨_, rfl⟩⟩
  · have echoes := echoes loud compiled
    rw [silent, compiled] at compiled'
    obtain rfl := Except.ok.inj compiled'
    have law := eraseComments_render_iff echoes.tidy
    refine ⟨law, fun single => law.mpr fun text member => ?_⟩
    have name := single_name single
    have line : Text.Single text := by
      cases echoes _ member with
      | tidy tidy => cases tidy.program
      | line id => exact Printer.single_line name id
      | signature id => exact Printer.single_signatureLine name id
      | global id => exact Printer.single_globalLine name id
    rw [Line.stray, line.lines_eq]
    rfl

/-! ### A function with a parameter -/

/-- Values without line feeds in their names. -/
theorem single_storedName (single : ∀ entry ∈ m.entries.toList, Text.Single entry.name)
    (id : ValueId) : Text.Single (m.storedName id) := by
  rw [storedName]
  cases found : m.entry? id with
  | none => exact List.not_mem_nil
  | some entry => exact single entry (Array.mem_toList_iff.mpr (Array.mem_of_getElem? found))

/-- A function whose parameter has a name, and which does nothing. -/
def idleSteps (name : String) : List Operation :=
  [.addFunction ⟨[.int 8], .void, false⟩ "f", .rename ⟨1⟩ name, .addBlock ⟨0⟩ .finish "entry",
    .insert ⟨some (.finish ⟨2⟩)⟩ (.ret none) ""]

def idle (name : String) : Module := builtBy "idle" (idleSteps name)

/-- A name that holds a line feed, and an instruction behind it. -/
def brokenName : String := "x\n    ud2"

theorem validate_idle {name : String} (known : name = "x" ∨ name = brokenName) :
    (idle name).validate = .ok () := by
  have dominators : DominatorTree.of (Cfg.mk ⟨0⟩ [(⟨2⟩, [])]).graph = ⟨[⟨2⟩], [none]⟩ :=
    DominatorTree.of_eq (by decide +kernel) (by decide +kernel) (by decide +kernel)
  have functions : ∀ name ∈ ["x", brokenName], (idle name).functions = [⟨0⟩] := by decide +kernel
  have flow : ∀ name ∈ ["x", brokenName], (Cfg.of (idle name) ⟨0⟩).nodes = [(⟨2⟩, [])] := by
    decide +kernel
  have listed : name ∈ ["x", brokenName] := by simpa using known
  refine validate_of_checks (functions name listed) ?_ (context_eq (flow name listed) dominators) ?_ ?_
  · rcases known with rfl | rfl <;> decide +kernel
  · rcases known with rfl | rfl <;> decide +kernel
  · rcases known with rfl | rfl <;> decide +kernel

/-- The head of the function is a comment of its program. -/
theorem exists_compile_idle {name : String} (known : name = "x" ∨ name = brokenName) :
    ∃ loud quiet, (idle name).compile ⟨.linux, true⟩ = .ok loud ∧
      (idle name).compile ⟨.linux, false⟩ = .ok quiet ∧
      .comment ("func void @f(i8 %" ++ name ++ ")") ∈ loud := by
  have made : ((idle name).assemble ⟨.linux, true⟩).toOption.any
      (fun lines => lines.contains (.comment ("func void @f(i8 %" ++ name ++ ")"))) = true := by
    rcases known with rfl | rfl <;> decide +kernel
  obtain ⟨program, _, compiled, member⟩ := Lowering.exists_program (validate_idle known) made
  obtain ⟨silent, _⟩ := compile_silent (idle name) ⟨.linux, true⟩
  rw [compiled] at silent
  exact ⟨program, withoutComments program, compiled, silent, List.contains_iff_mem.mp member⟩

/-- Comments that stay on their lines can be deleted. -/
theorem compile_comments_idle : ∃ loud quiet, (idle "x").compile ⟨.linux, true⟩ = .ok loud ∧
    (idle "x").compile ⟨.linux, false⟩ = .ok quiet ∧
    Text.eraseComments (render loud) = render quiet := by
  obtain ⟨loud, quiet, compiled, compiled', _⟩ := exists_compile_idle (.inl rfl)
  have single : ∀ entry ∈ (idle "x").entries.toList, Text.Single entry.name := by decide +kernel
  exact ⟨loud, quiet, compiled, compiled',
    ((compile_comments (idle "x") .linux).2.2 loud quiet compiled compiled').2
      (single_storedName single)⟩

/-- **A comment that goes on behind a line feed** leaves an instruction when comments are deleted. -/
theorem comments_left : Built (idle brokenName) ∧ ∃ loud quiet,
    (idle brokenName).compile ⟨.linux, true⟩ = .ok loud ∧
      (idle brokenName).compile ⟨.linux, false⟩ = .ok quiet ∧
      Text.eraseComments (render loud) ≠ render quiet := by
  obtain ⟨loud, quiet, compiled, compiled', member⟩ := exists_compile_idle (.inr rfl)
  obtain ⟨silent, echoes⟩ := compile_silent (idle brokenName) ⟨.linux, true⟩
  have same : quiet = withoutComments loud := by
    rw [compiled] at silent
    exact Except.ok.inj (compiled'.symm.trans silent)
  refine ⟨built_builtBy "idle" (idleSteps brokenName), loud, quiet, compiled, compiled', ?_⟩
  rw [same]
  intro deleted
  have none := (eraseComments_render_iff (echoes loud compiled).tidy).mp deleted _ member
  exact absurd none (by decide +kernel)

end Module

end SsaAmd64
