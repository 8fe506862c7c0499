/-
**The labels of a program.**

A program defines the symbol of each global and of each function with a body, and labels with the
numbers from zero on: one for each block, and one for each conditional branch that needs an edge of
its own. Symbols differ from one another, and so do numbered labels. But a name is never compared
with the labels that are handed out later, so a function or a global that is called like one of them
is defined twice.

* `Symbols.Issues`: the symbols that a module hands out;
* `Asm.Numbers`: code that defines some names and the labels with some numbers;
* `Lowering.numbers_lines`: the labels of the code of a function;
* `Module.Built.nodup_labels_iff`: when no label is defined twice.
-/

import SsaAmd64.Proofs.Asm.Written
import SsaAmd64.Proofs.Ir.Rosters
import SsaAmd64.Proofs.Lowering.Lines
import SsaAmd64.Proofs.Validation.DefinedReads

namespace SsaAmd64

open Asm

/-! ### Numbered labels -/

namespace Platform

variable {first middle last : Nat}

theorem label_injective (platform : Platform) : platform.label.Injective := by
  intro first second same
  have digits := congrArg String.toList ((String.append_right_inj _).mp same)
  rw [Nat.toString_eq_repr, Nat.toString_eq_repr, Nat.toList_repr, Nat.toList_repr] at digits
  have value := congrArg (Nat.ofDigitChars 10 · 0) digits
  exact Nat.ofDigitChars_ten_toDigits.symm.trans (value.trans Nat.ofDigitChars_ten_toDigits)

/-- The label that stands for a global is no numbered label. -/
theorem global_ne_label (platform : Platform) (position number : Nat) :
    platform.labelPrefix ++ "global" ++ toString position ≠ platform.label number := by
  intro same
  rw [label, String.append_assoc, String.append_right_inj] at same
  have digits : 'g' ∈ (toString number).toList := by
    rw [← same, String.toList_append]
    exact List.mem_append_left _ (by decide)
  rw [Nat.toString_eq_repr, Nat.toList_repr] at digits
  exact absurd (Nat.isDigit_of_mem_toDigits (by decide) (by decide) digits) (by decide)

/-- The labels with the numbers from one up to another. -/
def labelsFrom (platform : Platform) (first last : Nat) : List String :=
  (List.range' first (last - first)).map platform.label

@[simp] theorem labelsFrom_self (platform : Platform) (first : Nat) :
    platform.labelsFrom first first = [] := by
  rw [labelsFrom, Nat.sub_self]
  rfl

@[simp] theorem labelsFrom_succ (platform : Platform) (first : Nat) :
    platform.labelsFrom first (first + 1) = [platform.label first] := by
  rw [labelsFrom, Nat.add_sub_cancel_left]
  rfl

theorem labelsFrom_append (platform : Platform) (one : first ≤ middle) (other : middle ≤ last) :
    platform.labelsFrom first middle ++ platform.labelsFrom middle last =
      platform.labelsFrom first last := by
  obtain ⟨front, rfl⟩ := Nat.exists_eq_add_of_le one
  obtain ⟨back, rfl⟩ := Nat.exists_eq_add_of_le other
  have whole : first + front + back - first = front + back := by omega
  rw [labelsFrom, labelsFrom, labelsFrom, ← List.map_append, Nat.add_sub_cancel_left,
    Nat.add_sub_cancel_left, whole]
  refine congrArg (List.map platform.label) ?_
  have joined : List.range' first front ++ List.range' (first + 1 * front) back =
      List.range' first (front + back) := List.range'_append
  rwa [Nat.one_mul] at joined

end Platform

/-- Looking up all keys of a table in turn gives what the table holds. -/
theorem map_lookup {α : Type} {pairs : List (ValueId × α)} (distinct : (pairs.map Prod.fst).Nodup)
    (missing : α) :
    ((pairs.map Prod.fst).map fun key => (pairs.lookup key).getD missing) = pairs.map Prod.snd := by
  rw [List.map_map]
  refine List.map_congr_left fun entry member => ?_
  rw [Function.comp_apply, lookup_of_mem distinct member]
  rfl

namespace Asm

variable {platform : Platform} {first middle last : Nat} {names others : List String}
variable {lines rest : List Line}

/-- **Code that defines some names, and the labels with the numbers from one up to another.** -/
structure Numbers (platform : Platform) (first last : Nat) (names : List String)
    (lines : List Line) : Prop where
  le : first ≤ last
  perm : (labels lines).Perm (names ++ platform.labelsFrom first last)

namespace Numbers

/-- Code without numbered labels. -/
theorem of_labels (same : labels lines = names) : Numbers platform first first names lines := by
  refine ⟨Nat.le_refl _, ?_⟩
  rw [Platform.labelsFrom_self, List.append_nil, same]

/-- Code behind code. -/
theorem append (one : Numbers platform first middle names lines)
    (other : Numbers platform middle last others rest) :
    Numbers platform first last (names ++ others) (lines ++ rest) := by
  refine ⟨Nat.le_trans one.le other.le, ?_⟩
  rw [labels_append, ← platform.labelsFrom_append one.le other.le]
  refine (one.perm.append other.perm).trans ?_
  rw [List.append_assoc, List.append_assoc]
  refine List.Perm.append_left names ?_
  rw [← List.append_assoc, ← List.append_assoc]
  exact List.perm_append_comm.append_right _

end Numbers

/-! ### Code without labels -/

theorem labels_eq_nil (none : ∀ line ∈ lines, line.definedLabel? = none) : labels lines = [] :=
  List.filterMap_eq_nil_iff.mpr none

theorem Line.definedLabel?_of_isData {line : Line} (data : line.isData = true) :
    line.definedLabel? = none := by
  cases line <;> first | rfl | cases data

theorem Line.definedLabel?_of_isPlain {line : Line} (plain : line.isPlain = true) :
    line.definedLabel? = none := by
  cases line <;> first | rfl | cases plain

end Asm

namespace Lowering

variable {lowering : Lowering} {rules : Nat → StoreRule} {rule : StoreRule} {block id : ValueId}
variable {next after last : Nat} {lines body : List Line}

theorem Plain.labels_eq (plain : lowering.Plain rule lines) : Asm.labels lines = [] :=
  labels_eq_nil fun line member => Line.definedLabel?_of_isPlain (plain line member).plain

theorem labels_comment (comments : Bool) (text : String) : Asm.labels (comment comments text) = [] := by
  cases comments <;> rfl

theorem labels_adjustStack (operation : Arithmetic) (size : Nat) :
    Asm.labels (adjustStack operation size) = [] := by
  rw [adjustStack]
  split <;> rfl

theorem labels_prologue (lowering : Lowering) : Asm.labels lowering.prologue = [] := by
  rw [prologue, labels_append, labels_append, labels_adjustStack]
  split <;> rfl

theorem labels_header (lowering : Lowering) :
    Asm.labels lowering.header = [lowering.symbols.symbol lowering.function] := by
  rw [header, labels_append, labels_append, labels_append, labels_comment]
  split <;> rfl

theorem Edge.labels_eq (edge : lowering.Edge rules id lines) : Asm.labels lines = [] := by
  cases edge with
  | jump assigning leads =>
    rw [labels_append]
    cases assigning with
    | direct plain => rw [plain.labels_eq]; rfl
    | staged reserves plain =>
      rw [← List.singleton_append, labels_append, labels_append, plain.labels_eq]
      rfl

/-! ### The code of a function -/

/-- An instruction defines a label if it needs an edge of its own. -/
theorem Shape.numbers {ends : Bool} (shape : lowering.Shape rules id next ends lines after) :
    Numbers lowering.options.platform next after [] lines := by
  cases shape with
  | plain plain => exact .of_labels plain.labels_eq
  | call callee reserves placed stored =>
    refine .of_labels ?_
    simp only [labels_append, labels_adjustStack, placed.labels_eq, stored.labels_eq]
    rfl
  | branch edge => exact .of_labels edge.labels_eq
  | branchIf test leads edge =>
    refine .of_labels ?_
    rw [labels_append, test.labels_eq]
    exact edge.labels_eq
  | branchBoth test ifFalse ifTrue =>
    refine ⟨Nat.le_succ _, ?_⟩
    rw [Platform.labelsFrom_succ, labels_append, labels_append, test.labels_eq]
    show ([] ++ Asm.labels _ ++ _ :: Asm.labels _).Perm _
    rw [ifTrue.labels_eq]
    exact List.Perm.of_eq (congrArg (· ++ _) ifFalse.labels_eq)
  | ret plain =>
    refine .of_labels ?_
    rw [labels_append, plain.labels_eq]
    rfl
  | trap => exact .of_labels rfl

theorem numbers_instructions {ids : List ValueId}
    (inside : block ∈ lowering.subject.blocksOf lowering.function)
    (listed : ids ⊆ lowering.subject.instructionsOf block)
    (code : lowering.instructions next block ids = .ok (body, last)) :
    Numbers lowering.options.platform next last [] body := by
  induction ids generalizing next body last with
  | nil =>
    cases code
    exact .of_labels rfl
  | cons id ids ih =>
    obtain ⟨⟨lines, after⟩, here, code⟩ := ok_of_bind code
    obtain ⟨⟨others, last⟩, later, code⟩ := ok_of_bind code
    cases code
    obtain ⟨first, listed⟩ := List.cons_subset.mp listed
    have shape := (fair_of_all lowering).shape_instruction inside first _ here
    have commented : Numbers lowering.options.platform next next []
        (comment lowering.options.comments (lowering.printer.line id)) :=
      .of_labels (labels_comment _ _)
    exact (commented.append shape.numbers).append (ih listed later)

theorem numbers_blocks {blocks : List ValueId}
    (inside : ∀ block ∈ blocks, block ∈ lowering.subject.blocksOf lowering.function)
    (code : lowering.blocks next blocks = .ok (body, last)) :
    Numbers lowering.options.platform next last (blocks.map lowering.label) body := by
  induction blocks generalizing next body last with
  | nil =>
    cases code
    exact .of_labels rfl
  | cons block blocks ih =>
    obtain ⟨⟨lines, after⟩, here, code⟩ := ok_of_bind code
    obtain ⟨⟨others, last⟩, later, code⟩ := ok_of_bind code
    cases code
    obtain ⟨first, others'⟩ := List.forall_mem_cons.mp inside
    have labelled : Numbers lowering.options.platform next next [lowering.label block]
        [.label (lowering.label block)] := .of_labels rfl
    have lines := numbers_instructions first (List.Subset.refl _) here
    exact (labelled.append lines).append (ih others' later)

/-- The labels of the blocks have numbers in a row. -/
theorem map_label_of_made {printer : Printer} {options : Options} {symbols : Symbols}
    {function : ValueId}
    (made : Lowering.of printer options symbols next function = .ok (lowering, after))
    (distinct : (printer.subject.blocksOf function).Nodup) :
    (printer.subject.blocksOf function).map lowering.label =
        options.platform.labelsFrom next after ∧
      next ≤ after := by
  obtain ⟨plan, _, made⟩ := ok_of_bind made
  obtain ⟨frame, _, made⟩ := ok_of_bind made
  cases made
  refine ⟨?_, Nat.le_add_right _ _⟩
  rw [Platform.labelsFrom, Nat.add_sub_cancel_left]
  generalize printer.subject.blocksOf function = blocks at distinct
  let pairs := blocks.zipIdx.map fun placed =>
    (placed.1, options.platform.label (next + placed.2))
  have keys : pairs.map Prod.fst = blocks := by
    rw [List.map_map]
    exact List.zipIdx_map_fst 0 blocks
  have names : pairs.map Prod.snd =
      (List.range' next blocks.length).map options.platform.label := by
    rw [List.map_map, List.range'_eq_map_range, List.map_map, List.range_eq_range',
      ← List.zipIdx_map_snd 0 blocks, List.map_map]
    rfl
  rw [← names, ← map_lookup (keys ▸ distinct) "", keys]
  rfl

/-- **The labels of the code of a function**: its symbol, and labels with numbers in a row. -/
theorem numbers_lines {printer : Printer} {options : Options} {symbols : Symbols}
    {function : ValueId} {start : Nat}
    (made : Lowering.of printer options symbols start function = .ok (lowering, next))
    (distinct : (printer.subject.blocksOf function).Nodup)
    (code : lowering.lines next = .ok (lines, last)) :
    Numbers options.platform start last [symbols.symbol function] lines := by
  obtain ⟨named, before⟩ := map_label_of_made made distinct
  obtain ⟨rfl, rfl, rfl, rfl, _⟩ := eq_of_made made
  obtain ⟨parameters, saved, code⟩ := ok_of_bind code
  obtain ⟨⟨body, _⟩, blocks, code⟩ := ok_of_bind code
  cases code
  have plain := (fair_of_all lowering).saveParameters parameters saved
  have numbers := numbers_blocks (fun _ member => member) blocks
  refine ⟨Nat.le_trans before numbers.le, ?_⟩
  rw [labels_append, labels_append, labels_append, labels_header, labels_prologue,
    plain.labels_eq, List.append_nil, List.append_nil]
  refine List.Perm.append_left _ (numbers.perm.trans ?_)
  have named : (lowering.subject.blocksOf lowering.function).map lowering.label =
      lowering.options.platform.labelsFrom start next := named
  rw [named, Platform.labelsFrom_append _ before numbers.le]

end Lowering

/-! ### Symbols -/

namespace Symbols

variable {printer : Printer} {platform : Platform} {symbols final : Symbols} {ids : List ValueId}
variable {id : ValueId} {position : Nat}

/-- What the symbol of a value looks like: its name, or a label that no number makes. -/
def Issued (printer : Printer) (platform : Platform) (id : ValueId) (symbol : String) : Prop :=
  isIdentifier (printer.name id) = true ∧ symbol = platform.symbolPrefix ++ printer.name id ∨
    isIdentifier (printer.name id) = false ∧
      ∃ position : Nat, symbol = platform.labelPrefix ++ "global" ++ toString position

/-- **What claiming symbols for values hands out**: one to each of them, all different. -/
structure Issues (printer : Printer) (platform : Platform) (symbols : Symbols) (ids : List ValueId)
    (final : Symbols) : Prop where
  distinct : (symbols.names.map Prod.snd).Nodup → (final.names.map Prod.snd).Nodup
  keys : final.names.map Prod.fst = symbols.names.map Prod.fst ++ ids
  issued : (∀ entry ∈ symbols.names, Issued printer platform entry.1 entry.2) →
    ∀ entry ∈ final.names, Issued printer platform entry.1 entry.2

theorem issues_nil (symbols : Symbols) : Issues printer platform symbols [] symbols :=
  ⟨fun start => start, (List.append_nil _).symm, fun start => start⟩

/-- A symbol that is claimed is new. -/
theorem not_mem_of_claim {symbol : String} (done : symbols.claim id symbol = .ok final) :
    symbol ∉ symbols.names.map Prod.snd := by
  rw [claim] at done
  split at done
  case h_1 => cases done
  case h_2 none =>
    intro member
    obtain ⟨entry, listed, same⟩ := List.mem_map.mp member
    rw [owner?, Option.map_eq_none_iff, List.find?_eq_none] at none
    exact none entry listed (beq_iff_eq.mpr same)

theorem Issues.cons {next others : Symbols} {symbol : String}
    (issued : Issued printer platform id symbol) (done : symbols.claim id symbol = .ok next)
    (same : others.names = next.names) (later : Issues printer platform others ids final) :
    Issues printer platform symbols (id :: ids) final := by
  have names := same.trans (names_claim done)
  refine ⟨fun start => later.distinct ?_, ?_, fun start => later.issued ?_⟩
  · rw [names, List.map_append]
    exact start.append (List.nodup_singleton _) (List.disjoint_singleton.mpr (not_mem_of_claim done))
  · rw [later.keys, names, List.map_append, List.append_assoc]
    rfl
  · rw [names]
    exact List.forall_mem_append.mpr ⟨start, List.forall_mem_singleton.mpr issued⟩

theorem issues_functions (done : claimFunctions printer platform symbols ids = .ok final) :
    Issues printer platform symbols ids final := by
  induction ids generalizing symbols with
  | nil =>
    obtain rfl := Except.ok.inj done
    exact issues_nil symbols
  | cons function functions ih =>
    rw [claimFunctions] at done
    split at done
    case isTrue accepted =>
      obtain ⟨next, claim, rest⟩ := ok_of_bind done
      exact .cons (.inl ⟨accepted, rfl⟩) claim rfl (ih rest)
    case isFalse => cases done

theorem issues_globals (done : claimGlobals printer platform position symbols ids = .ok final) :
    Issues printer platform symbols ids final := by
  induction ids generalizing symbols position with
  | nil =>
    obtain rfl := Except.ok.inj done
    exact issues_nil symbols
  | cons global globals ih =>
    rw [claimGlobals] at done
    split at done
    case isTrue accepted =>
      obtain ⟨next, claim, rest⟩ := ok_of_bind done
      exact .cons (.inl ⟨accepted, rfl⟩) claim rfl (ih rest)
    case isFalse foreign =>
      obtain ⟨next, claim, rest⟩ := ok_of_bind done
      exact .cons (.inr ⟨Bool.eq_false_iff.mpr foreign, position, rfl⟩) claim (by rfl) (ih rest)

/-- **Each function and each global gets a symbol of its own.** -/
theorem issues_of (named : Symbols.of printer platform = .ok symbols) :
    Issues printer platform empty (printer.subject.functions ++ printer.subject.globals) symbols := by
  obtain ⟨functions, first, second⟩ := ok_of_bind named
  have one := issues_functions first
  have other := issues_globals second
  refine ⟨fun start => other.distinct (one.distinct start), ?_,
    fun start => other.issued (one.issued start)⟩
  rw [other.keys, one.keys, List.append_assoc]

end Symbols

/-- Only on platforms that decorate no symbol, a name that reads like a numbered label is one. -/
theorem Platform.isIdentifier_of_eq_label {platform : Platform} {name : String} {number : Nat}
    (same : platform.symbolPrefix ++ name = platform.label number) : isIdentifier name = true := by
  have letters := List.all_eq_true.mp (IsWord.nat number)
  have spelled := congrArg String.toList same
  rw [label, String.toList_append, String.toList_append] at spelled
  cases platform with
  | macos => cases spelled
  | linux | windows =>
    have spelled : name.toList = '.' :: 'L' :: (toString number).toList := spelled
    rw [isIdentifier, spelled]
    exact List.all_eq_true.mpr (List.forall_mem_cons.mpr ⟨rfl, letters⟩)

namespace Lowering

variable {printer : Printer} {options : Options} {symbols : Symbols} {platform : Platform}
variable {lines : List Line} {next : Nat}

theorem labels_dataSection {comments : Bool}
    (globals : ∀ id ∈ printer.subject.globals, (printer.subject.global? id).isSome)
    (code : dataSection printer symbols comments = .ok lines) :
    Asm.labels lines = printer.subject.globals.map symbols.symbol := by
  have each : ∀ id ∈ printer.subject.globals,
      Ensures (fun part => Asm.labels part = [symbols.symbol id])
        (globalData printer symbols comments id) := by
    intro id member
    obtain ⟨held, found⟩ := Option.isSome_iff_exists.mp (globals id member)
    rw [globalData, found]
    refine (Ensures.trivial _).bind fun extent _ _ => ?_
    refine (data_initialData symbols held.initialiser).bind fun content _ data => .of_ok ?_
    have none : Asm.labels content = [] := labels_eq_nil fun line member =>
      Line.definedLabel?_of_isData (data line member).1
    simp only [labels_append, none, labels_comment]
    split <;> rfl
  rw [dataSection] at code
  split at code
  case h_1 empty =>
    cases code
    rw [empty]
    rfl
  case h_2 =>
    obtain ⟨parts, listed, done⟩ := ok_of_bind code
    cases done
    have pairs := forall₂_of_mapM listed
    show Asm.labels parts.flatten = _
    clear code listed globals
    generalize printer.subject.globals = ids at each pairs
    induction pairs with
    | nil => rfl
    | cons here _ ih =>
      obtain ⟨first, others⟩ := List.forall_mem_cons.mp each
      rw [List.flatten_cons, labels_append, first _ here, ih others]
      rfl

theorem numbers_functions {functions : List ValueId} (distinct : ∀ function,
      (printer.subject.blocksOf function).Nodup)
    (code : Lowering.functions printer options symbols next functions = .ok lines) :
    ∃ last, Numbers options.platform next last ((functions.filter fun function =>
      !(printer.subject.blocksOf function).isEmpty).map symbols.symbol) lines := by
  induction functions generalizing next lines with
  | nil =>
    cases code
    exact ⟨next, .of_labels rfl⟩
  | cons function others ih =>
    rw [Lowering.functions] at code
    split at code
    case isTrue prototype =>
      rw [List.filter_cons_of_neg (by simp [prototype])]
      exact ih code
    case isFalse defined =>
      rw [List.filter_cons_of_pos (by simp [defined])]
      obtain ⟨⟨lowering, after⟩, made, code⟩ := ok_of_bind code
      obtain ⟨⟨body, middle⟩, here, code⟩ := ok_of_bind code
      obtain ⟨rest, later, code⟩ := ok_of_bind code
      cases code
      obtain ⟨last, numbers⟩ := ih later
      exact ⟨last, (numbers_lines made (distinct function) here).append numbers⟩

end Lowering

namespace Module

variable {m : Module} {options : Options} {program : List Line}

/-- The functions that have a body. -/
def defined (m : Module) : List ValueId :=
  m.functions.filter fun function => !(m.blocksOf function).isEmpty

/-- **The labels of a program**: the symbols of what it defines, and labels with numbers. -/
theorem Built.perm_labels (built : Built m) (assembled : m.assemble options = .ok program) :
    ∃ symbols count, Symbols.of (Printer.of m) options.platform = .ok symbols ∧
      (labels program).Perm ((m.globals ++ m.defined).map symbols.symbol ++
        options.platform.labelsFrom 0 count) := by
  obtain ⟨symbols, named, assembled⟩ := ok_of_bind assembled
  obtain ⟨data, globals, assembled⟩ := ok_of_bind assembled
  obtain ⟨text, functions, assembled⟩ := ok_of_bind assembled
  obtain rfl := Except.ok.inj assembled
  have first : labels data = m.globals.map symbols.symbol :=
    Lowering.labels_dataSection
      (fun id member => isSome_global?_iff.mpr (built.enrolled.globals id member)) globals
  obtain ⟨count, numbers⟩ := Lowering.numbers_functions built.linked.distinctBlocks functions
  refine ⟨symbols, count, named, ?_⟩
  have footer : labels (Lowering.footer options.platform) = [] := by
    rw [Lowering.footer]
    split <;> rfl
  rw [labels_append, labels_append, labels_append, footer, List.append_nil, first, List.map_append,
    List.append_assoc, List.append_assoc]
  exact List.Perm.append_left _ numbers.perm

/-- Each function and each global has one symbol. -/
theorem Built.distinct_keys (built : Built m) {symbols : Symbols}
    (named : Symbols.of (Printer.of m) options.platform = .ok symbols) :
    symbols.names.map Prod.fst = m.functions ++ m.globals ∧
      (symbols.names.map Prod.fst).Nodup := by
  have enrolled := built.enrolled
  have apart : m.functions.Disjoint m.globals := by
    intro id function global
    cases (enrolled.functions id function).symm.trans (enrolled.globals id global)
  have keys : symbols.names.map Prod.fst = m.functions ++ m.globals := (Symbols.issues_of named).keys
  refine ⟨keys, ?_⟩
  rw [keys]
  exact enrolled.distinctFunctions.append enrolled.distinctGlobals apart

/-- Symbols differ from one another. -/
theorem Built.nodup_symbols (built : Built m) {symbols : Symbols}
    (named : Symbols.of (Printer.of m) options.platform = .ok symbols) :
    ((m.globals ++ m.defined).map symbols.symbol).Nodup := by
  obtain ⟨keys, distinct⟩ := built.distinct_keys named
  have all : ((m.functions ++ m.globals).map symbols.symbol).Nodup := by
    rw [← keys]
    exact (map_lookup distinct "").symm ▸ (Symbols.issues_of named).distinct .nil
  have swapped : ((m.globals ++ m.functions).map symbols.symbol).Nodup :=
    (List.perm_append_comm.map symbols.symbol).nodup_iff.mp all
  exact swapped.sublist ((List.filter_sublist.append_left m.globals).map symbols.symbol)

/-- A symbol is issued for its value. -/
theorem Built.issued_symbol (built : Built m) {symbols : Symbols} {id : ValueId}
    (named : Symbols.of (Printer.of m) options.platform = .ok symbols)
    (member : id ∈ m.globals ++ m.defined) :
    Symbols.Issued (Printer.of m) options.platform id (symbols.symbol id) := by
  obtain ⟨keys, distinct⟩ := built.distinct_keys named
  have listed : id ∈ symbols.names.map Prod.fst := by
    rw [keys]
    rcases List.mem_append.mp member with global | function
    · exact List.mem_append_right _ global
    · exact List.mem_append_left _ (List.mem_of_mem_filter function)
  obtain ⟨⟨_, symbol⟩, entry, rfl⟩ := List.mem_map.mp listed
  rw [Symbols.symbol, lookup_of_mem distinct entry]
  exact (Symbols.issues_of named).issued (List.forall_mem_nil _) _ entry

/-- A symbol is a numbered label where the name of its value reads like one. -/
theorem symbol_eq_label_iff {symbols : Symbols} {id : ValueId} {number : Nat}
    (issued : Symbols.Issued (Printer.of m) options.platform id (symbols.symbol id)) :
    symbols.symbol id = options.platform.label number ↔
      options.platform.symbolPrefix ++ (Printer.of m).name id = options.platform.label number := by
  rcases issued with ⟨_, same⟩ | ⟨foreign, position, same⟩
  · rw [same]
  · rw [same]
    refine iff_of_false (Platform.global_ne_label _ position number) fun equal => ?_
    rw [Platform.isIdentifier_of_eq_label equal] at foreign
    cases foreign

/-- **No label is defined twice**, exactly if no function with a body and no global is called like a
label that is handed out by number. -/
theorem Built.nodup_labels_iff (built : Built m) (assembled : m.assemble options = .ok program) :
    ∃ symbols count, Symbols.of (Printer.of m) options.platform = .ok symbols ∧
      (labels program).Perm ((m.globals ++ m.defined).map symbols.symbol ++
        options.platform.labelsFrom 0 count) ∧
      ((labels program).Nodup ↔ ∀ id ∈ m.globals ++ m.defined, ∀ number < count,
        options.platform.symbolPrefix ++ (Printer.of m).name id ≠ options.platform.label number) := by
  obtain ⟨symbols, count, named, perm⟩ := built.perm_labels assembled
  refine ⟨symbols, count, named, perm, ?_⟩
  have numbered : (options.platform.labelsFrom 0 count).Nodup :=
    List.Nodup.map options.platform.label_injective List.nodup_range'
  have reads : ∀ id ∈ m.globals ++ m.defined, ∀ number,
      symbols.symbol id = options.platform.label number ↔
        options.platform.symbolPrefix ++ (Printer.of m).name id = options.platform.label number :=
    fun id member number => symbol_eq_label_iff (built.issued_symbol named member)
  rw [perm.nodup_iff, List.nodup_append]
  constructor
  · rintro ⟨_, _, apart⟩ id member number less same
    refine apart _ (List.mem_map_of_mem member) (options.platform.label number)
      (List.mem_map_of_mem (List.mem_range'_1.mpr (by omega))) ?_
    exact (reads id member number).mpr same
  · intro apart
    refine ⟨built.nodup_symbols named, numbered, fun symbol member label member' same => ?_⟩
    obtain ⟨id, listed, rfl⟩ := List.mem_map.mp member
    obtain ⟨number, range, rfl⟩ := List.mem_map.mp member'
    refine apart id listed number ?_ ((reads id listed number).mp same)
    have range := List.mem_range'_1.mp range
    omega

/-- A function that is called like the label of its only block. -/
def clashSteps : List Operation :=
  [.addFunction ⟨[], .void, false⟩ ".L0", .addBlock ⟨0⟩ .finish "entry",
    .insert ⟨some (.finish ⟨1⟩)⟩ (.ret none) ""]

def clash : Module := builtBy "clash" clashSteps

theorem validate_clash : clash.validate = .ok () := by
  have functions : clash.functions = [⟨0⟩] := by decide +kernel
  have flow : (Cfg.of clash ⟨0⟩).nodes = [(⟨1⟩, [])] := by decide +kernel
  have dominators : DominatorTree.of (Cfg.mk ⟨0⟩ [(⟨1⟩, [])]).graph = ⟨[⟨1⟩], [none]⟩ :=
    DominatorTree.of_eq (by decide +kernel) (by decide +kernel) (by decide +kernel)
  exact validate_of_checks functions (by decide +kernel) (context_eq flow dominators)
    (by decide +kernel) (by decide +kernel)

theorem exists_program_clash : ∃ program, clash.assemble Options.default = .ok program ∧
    clash.compile Options.default = .ok program ∧ labels program = [".L0", ".L0"] := by
  have made : ((clash.assemble Options.default).toOption.any fun program =>
      labels program = [".L0", ".L0"]) = true := by decide +kernel
  obtain ⟨program, assembled, compiled, same⟩ := Lowering.exists_program validate_clash made
  exact ⟨program, assembled, compiled, of_decide_eq_true same⟩

/-- The function has the symbol that its block has as its label. -/
theorem nodup_labels_iff_clash : ∃ program symbols count,
    clash.assemble Options.default = .ok program ∧
      Symbols.of (Printer.of clash) .linux = .ok symbols ∧
      (labels program).Perm ((clash.globals ++ clash.defined).map symbols.symbol ++
        Platform.linux.labelsFrom 0 count) ∧
      ((labels program).Nodup ↔ ∀ id ∈ clash.globals ++ clash.defined, ∀ number < count,
        Platform.linux.symbolPrefix ++ (Printer.of clash).name id ≠ Platform.linux.label number) := by
  obtain ⟨program, assembled, _⟩ := exists_program_clash
  obtain ⟨symbols, count, same⟩ :=
    Built.nodup_labels_iff (built_builtBy "clash" clashSteps) assembled
  exact ⟨program, symbols, count, assembled, same⟩

/-- **An accepted module whose program defines a label twice.** -/
theorem labels_repeated : Built clash ∧ ∃ program, clash.compile Options.default = .ok program ∧
    labels program = [".L0", ".L0"] ∧ ¬(labels program).Nodup := by
  obtain ⟨program, _, compiled, same⟩ := exists_program_clash
  refine ⟨built_builtBy "clash" clashSteps, program, compiled, same, ?_⟩
  rw [same]
  decide

end Module

end SsaAmd64
