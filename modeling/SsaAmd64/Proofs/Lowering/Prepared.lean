/-
**Functions for which code is made.**

A function of an accepted module, once its call plan and its frame have been found: its operands are
literals, symbols with a name, or values with a home slot, and its blocks have labels. Types without
layout have been stopped by then, so only a block has the type of one.

* `Lowering.Prepared`: such a function;
* `Lowering.Makes`: such a function, and a program that contains its code;
* `Lowering.Reads`: where a value is read from;
* `Lowering.Prepared.exists_source`: every operand but a block is read from somewhere.
-/

import SsaAmd64.Proofs.Lowering.Layout
import SsaAmd64.Proofs.Lowering.Slots
import SsaAmd64.Proofs.Validation.Settled

namespace SsaAmd64

/-! ### Symbols -/

namespace Symbols

variable {printer : Printer} {platform : Platform} {symbols final : Symbols} {ids : List ValueId}
variable {id : ValueId} {position : Nat}

/-- **No symbol is empty.** -/
def Proper (symbols : Symbols) : Prop :=
  ∀ entry ∈ symbols.names, entry.2 ≠ ""

theorem Proper.symbol (proper : symbols.Proper) (member : id ∈ symbols.names.map Prod.fst) :
    symbols.symbol id ≠ "" := by
  obtain ⟨entry, inside, rfl⟩ := List.mem_map.mp member
  cases found : symbols.names.lookup entry.1 with
  | none =>
    have missing := List.lookup_eq_none_iff.mp found entry inside
    simp at missing
  | some name =>
    rw [Symbols.symbol, found]
    exact proper _ (mem_of_lookup found)

/-- A symbol that is claimed belongs to its value, and the others stay. -/
theorem names_claim {symbol : String} (done : symbols.claim id symbol = .ok final) :
    final.names = symbols.names ++ [(id, symbol)] := by
  rw [claim] at done
  split at done
  · cases done
  · rw [← Except.ok.inj done]

theorem Proper.claim {symbol : String} (proper : symbols.Proper) (nonempty : symbol ≠ "")
    (done : symbols.claim id symbol = .ok final) : final.Proper := by
  intro entry member
  rw [names_claim done] at member
  rcases List.mem_append.mp member with old | new
  · exact proper entry old
  · rw [List.mem_singleton.mp new]
    exact nonempty

theorem mem_claim {symbol : String} (done : symbols.claim id symbol = .ok final) :
    id ∈ final.names.map Prod.fst := by
  rw [names_claim done, List.map_append]
  exact List.mem_append_right _ (List.mem_singleton.mpr rfl)

theorem subset_claim {symbol : String} (done : symbols.claim id symbol = .ok final) :
    symbols.names ⊆ final.names := by
  rw [names_claim done]
  exact List.subset_append_left _ _

theorem append_ne_empty {first second : String} (nonempty : second ≠ "") : first ++ second ≠ "" := by
  intro empty
  exact nonempty (String.append_eq_empty_iff.mp empty).2

theorem ne_empty_of_isIdentifier {name : String} (accepted : isIdentifier name = true) :
    name ≠ "" := by
  rintro rfl
  cases accepted

/-- What claiming symbols for values leaves behind: proper symbols, one for each value, and those
that were there. -/
structure Claimed (symbols : Symbols) (ids : List ValueId) (final : Symbols) : Prop where
  proper : symbols.Proper → final.Proper
  kept : symbols.names ⊆ final.names
  claimed : ids ⊆ final.names.map Prod.fst

theorem Claimed.cons {next : Symbols} {symbol : String} (nonempty : symbol ≠ "")
    (done : symbols.claim id symbol = .ok next) {others : Symbols}
    (same : others.names = next.names) (later : Claimed others ids final) :
    Claimed symbols (id :: ids) final := by
  have kept : next.names ⊆ final.names := same ▸ later.kept
  refine ⟨fun proper => later.proper ?_, List.Subset.trans (subset_claim done) kept, ?_⟩
  · intro entry member
    exact proper.claim nonempty done entry (same ▸ member)
  · refine List.cons_subset.mpr ⟨?_, later.claimed⟩
    exact List.map_subset _ kept (mem_claim done)

theorem claimed_nil (symbols : Symbols) : Claimed symbols [] symbols :=
  ⟨fun proper => proper, List.Subset.refl _, List.nil_subset _⟩

theorem claimed_functions (done : claimFunctions printer platform symbols ids = .ok final) :
    Claimed symbols ids final := by
  induction ids generalizing symbols with
  | nil =>
    obtain rfl := Except.ok.inj done
    exact claimed_nil symbols
  | cons function functions ih =>
    rw [claimFunctions] at done
    split at done
    case isTrue accepted =>
      obtain ⟨next, claim, rest⟩ := ok_of_bind done
      exact .cons (append_ne_empty (ne_empty_of_isIdentifier accepted)) claim rfl (ih rest)
    case isFalse => cases done

theorem claimed_globals (done : claimGlobals printer platform position symbols ids = .ok final) :
    Claimed symbols ids final := by
  induction ids generalizing symbols position with
  | nil =>
    obtain rfl := Except.ok.inj done
    exact claimed_nil symbols
  | cons global globals ih =>
    rw [claimGlobals] at done
    split at done
    case isTrue accepted =>
      obtain ⟨next, claim, rest⟩ := ok_of_bind done
      exact .cons (append_ne_empty (ne_empty_of_isIdentifier accepted)) claim rfl (ih rest)
    case isFalse =>
      obtain ⟨next, claim, rest⟩ := ok_of_bind done
      refine .cons (fun empty => ?_) claim (by rfl) (ih rest)
      have lengths := congrArg String.length empty
      simp [String.length_append] at lengths

/-- **Every function and every global has a symbol that is not empty.** -/
theorem symbol_ne_empty (named : Symbols.of printer platform = .ok symbols)
    (member : id ∈ printer.subject.functions ∨ id ∈ printer.subject.globals) :
    symbols.symbol id ≠ "" := by
  obtain ⟨functions, first, second⟩ := ok_of_bind named
  have one := claimed_functions first
  have other := claimed_globals second
  refine (other.proper (one.proper nofun)).symbol ?_
  rcases member with function | global
  · exact List.map_subset _ other.kept (one.claimed function)
  · exact other.claimed global

end Symbols

theorem Platform.label_ne_empty (platform : Platform) (number : Nat) :
    platform.label number ≠ "" := by
  intro empty
  have lengths := congrArg String.length empty
  cases platform <;> simp [Platform.label, Platform.labelPrefix, String.length_append] at lengths

theorem Module.operand?_of_instruction? {m : Module} {id : ValueId} {held : Instruction}
    (found : m.instruction? id = some held) (slot : Nat) : m.operand? id slot = held.operand slot := by
  rw [operand?, operandsOf_of_instruction? found]
  rfl

namespace Lowering

/-- **A function of an accepted module for which code is made.** -/
structure Prepared (lowering : Lowering) : Prop where
  accepted : lowering.subject.Accepted lowering.function
  named : Symbols.of lowering.printer lowering.options.platform = .ok lowering.symbols
  planned : ∀ held, lowering.subject.function? lowering.function = some held →
    lowering.convention.plan held.signature.parameters held.signature.result = .ok lowering.plan
  framed : Frame.of lowering.subject lowering.function = .ok lowering.frame
  labelled : ∃ start, lowering.labels =
    (lowering.subject.blocksOf lowering.function).zipIdx.map fun (block, index) =>
      (block, lowering.options.platform.label (start + index))

variable {printer : Printer} {options : Options} {symbols : Symbols} {lowering : Lowering}
variable {function block id value : ValueId} {held : Instruction} {start after : Nat}

theorem Prepared.of_made
    (made : Lowering.of printer options symbols start function = .ok (lowering, after))
    (accepted : printer.subject.Accepted function)
    (named : Symbols.of printer options.platform = .ok symbols) : lowering.Prepared := by
  obtain ⟨samePrinter, sameOptions, sameSymbols, sameFunction, framed, planned⟩ := eq_of_made made
  obtain ⟨plan, _, made⟩ := ok_of_bind made
  obtain ⟨frame, _, made⟩ := ok_of_bind made
  cases made
  exact ⟨accepted, named, planned, framed, start, rfl⟩

/-- **What the code of a function in a program is made from.** -/
structure Makes (m : Module) (options : Options) (program : List Asm.Line) (function : ValueId)
    (lowering : Lowering) : Prop where
  named : Symbols.of (Printer.of m) options.platform = .ok lowering.symbols
  stands : ∃ start after code last,
    Lowering.of (Printer.of m) options lowering.symbols start function = .ok (lowering, after) ∧
    lowering.lines after = .ok (code, last) ∧ code <:+: program

/-- **The code of a module has that of each function with a body.** -/
theorem exists_makes {m : Module} {program : List Asm.Line}
    (compiled : m.compile options = .ok program) (member : function ∈ m.functions)
    (defined : (m.blocksOf function).isEmpty = false) :
    ∃ lowering, Makes m options program function lowering := by
  obtain ⟨_, symbols, start, lowering, after, code, last, before, behind, named, made, lines, rfl⟩ :=
    exists_of_compile compiled member defined
  obtain ⟨_, _, rfl, _⟩ := eq_of_made made
  exact ⟨lowering, named, start, after, code, last, made, lines, before, behind, rfl⟩

namespace Makes

variable {m : Module} {program : List Asm.Line}

theorem eq (makes : Makes m options program function lowering) :
    lowering.subject = m ∧ lowering.function = function ∧ lowering.options = options := by
  obtain ⟨start, after, code, last, made, _⟩ := makes.stands
  obtain ⟨own, same, _, same', _⟩ := eq_of_made made
  exact ⟨congrArg Printer.subject own, same', same⟩

theorem prepared (makes : Makes m options program function lowering) (built : m.Built)
    (compiled : m.compile options = .ok program) (member : function ∈ m.functions) :
    lowering.Prepared := by
  obtain ⟨start, after, code, last, made, _⟩ := makes.stands
  obtain ⟨_, valid, _⟩ := ok_of_bind compiled
  exact Prepared.of_made made ⟨built, ok_of_mapError valid, member⟩ makes.named

/-- The code of each instruction of the function is part of the program. -/
theorem exists_instruction (makes : Makes m options program function lowering)
    (inside : block ∈ m.blocksOf function) (listed : id ∈ m.instructionsOf block) :
    ∃ next part after, lowering.instruction next block id = .ok (part, after) ∧
      part <:+: program := by
  obtain ⟨rfl, rfl, rfl⟩ := makes.eq
  obtain ⟨start, after, code, last, _, lines, within⟩ := makes.stands
  obtain ⟨next, part, after, made, inner⟩ := exists_instruction_of_lines lines inside listed
  exact ⟨next, part, after, made, inner.trans within⟩

end Makes

/-- Where a value is read from: a literal, a symbol that is not empty, or a home slot for a type with
a layout. -/
inductive Reads (lowering : Lowering) (value : ValueId) : Source → Prop
  | literal {held : Literal} (found : lowering.subject.literal? value = some held) :
    Reads lowering value (.literal held)
  | global {held : Global} (found : lowering.subject.global? value = some held)
    (nonempty : lowering.symbols.symbol value ≠ "") :
    Reads lowering value (.symbol (lowering.symbols.symbol value))
  | function {held : Function} (found : lowering.subject.function? value = some held)
    (nonempty : lowering.symbols.symbol value ≠ "") :
    Reads lowering value (.symbol (lowering.symbols.symbol value))
  | slot {displacement : Int} {size : Nat}
    (home : value ∈ Frame.homes lowering.subject lowering.function)
    (slot : lowering.frame.slot? value = some displacement)
    (size : (lowering.subject.typeOf value).size = .ok size) :
    Reads lowering value (.slot displacement)

theorem literal?_of_source {literal : Literal}
    (found : lowering.source value = .ok (.literal literal)) :
    lowering.subject.literal? value = some literal := by
  rw [Lowering.source] at found
  split at found
  case h_1 known =>
    rw [Module.literal?, known, Source.literal.inj (Except.ok.inj found)]
  case h_5 =>
    obtain ⟨_, _, same⟩ := ok_of_map found
    cases same
  all_goals cases found

theorem source_of_literal {literal : Literal}
    (known : lowering.subject.literal? value = some literal) :
    lowering.source value = .ok (.literal literal) := by
  rw [Module.literal?] at known
  split at known
  case h_1 found =>
    rw [Lowering.source, found, Option.some.inj known]
  case h_2 => cases known

/-- An operand that is there. -/
theorem operand_eq {slot : Nat} (found : lowering.subject.instruction? id = some held)
    (filled : held.operand slot = some value) : lowering.operand id slot = .ok value := by
  rw [operand, Module.operand?_of_instruction? found, filled]

theorem trailingValues_eq {values : List ValueId}
    (found : lowering.subject.instruction? id = some held)
    (filled : held.operands.tail = values.map some) : lowering.trailingValues id = values := by
  rw [trailingValues, Module.operandsOf_of_instruction? found, filled, List.filterMap_map]
  exact List.filterMap_some

namespace Prepared

/-- A home has a slot, and its type a size. -/
theorem exists_slot (prepared : lowering.Prepared)
    (home : id ∈ Frame.homes lowering.subject lowering.function) :
    ∃ displacement size, lowering.frame.slot? id = some displacement ∧
      (lowering.subject.typeOf id).size = .ok size := by
  obtain ⟨depths, stacked, keys⟩ := Frame.exists_stacked_of prepared.framed
  obtain ⟨displacement, slot⟩ := stacked.slot?_of_mem (keys ▸ home)
  obtain ⟨extent, layout⟩ := Frame.extent_of_home prepared.framed home
  refine ⟨displacement, extent.size, slot, ?_⟩
  rw [Ty.size, ok_of_mapError layout]
  rfl

theorem home_of_parameter (member : id ∈ lowering.subject.parametersOf lowering.function) :
    id ∈ Frame.homes lowering.subject lowering.function :=
  List.mem_append_left _ member

/-- An instruction with a type has a home. -/
theorem home_of_typeOf (prepared : lowering.Prepared)
    (member : id ∈ lowering.subject.bodyOf lowering.function)
    (typed : lowering.subject.typeOf id ≠ .void) :
    id ∈ Frame.homes lowering.subject lowering.function := by
  obtain ⟨held, found⟩ := prepared.accepted.instruction? member
  refine List.mem_append_right _ (List.mem_filter.mpr ⟨member, ?_⟩)
  have valued : held.opcode.isValue = true := by
    by_contra other
    exact typed (Module.typeOf_of_not_isValue found (by simpa using other))
  rw [Module.producesValue, Module.hasOpcode, Module.opcode?, found]
  cases known : lowering.subject.typeOf id <;> simp_all [Ty.isVoid]

theorem symbol_ne_empty_of_function (prepared : lowering.Prepared) {held : Function}
    (found : lowering.subject.function? id = some held) : lowering.symbols.symbol id ≠ "" :=
  Symbols.symbol_ne_empty prepared.named
    (.inl (prepared.accepted.built.listed.mem_functions found))

theorem symbol_ne_empty_of_global (prepared : lowering.Prepared) {held : Global}
    (found : lowering.subject.global? id = some held) : lowering.symbols.symbol id ≠ "" :=
  Symbols.symbol_ne_empty prepared.named
    (.inr (prepared.accepted.built.listed.mem_globals found))

/-- The label of a block is not empty. -/
theorem label_ne_empty (prepared : lowering.Prepared)
    (inside : block ∈ lowering.subject.blocksOf lowering.function) :
    lowering.label block ≠ "" := by
  obtain ⟨start, labels⟩ := prepared.labelled
  cases found : lowering.labels.lookup block with
  | none =>
    obtain ⟨index, place⟩ := List.mem_iff_getElem?.mp inside
    have member : (block, lowering.options.platform.label (start + index)) ∈ lowering.labels := by
      rw [labels]
      exact List.mem_map.mpr ⟨(block, index), List.mem_zipIdx_iff_getElem?.mpr place, rfl⟩
    have missing := List.lookup_eq_none_iff.mp found _ member
    simp at missing
  | some label =>
    rw [Lowering.label, found]
    have member := mem_of_lookup found
    rw [labels] at member
    obtain ⟨⟨_, index⟩, _, same⟩ := List.mem_map.mp member
    rw [← (Prod.mk.inj same).2]
    exact Platform.label_ne_empty _ _

/-- A parameter or an instruction with a home is read from its slot. -/
theorem source_of_home (prepared : lowering.Prepared)
    (home : value ∈ Frame.homes lowering.subject lowering.function) :
    ∃ source, lowering.source value = .ok source ∧ lowering.Reads value source := by
  obtain ⟨displacement, size, slot, sized⟩ := prepared.exists_slot home
  have found : lowering.slot value = .ok displacement := by rw [Lowering.slot, slot]
  refine ⟨.slot displacement, ?_, .slot home slot sized⟩
  rcases List.mem_append.mp home with parameter | instruction
  · obtain ⟨content, known, _⟩ := prepared.accepted.built.linked.parameter_of_mem parameter
    rw [Module.parameter?] at known
    split at known
    case h_1 same =>
      rw [Lowering.source, same, found]
      rfl
    case h_2 => cases known
  · obtain ⟨held, known⟩ := prepared.accepted.instruction? (List.mem_filter.mp instruction).1
    rw [Lowering.source, Module.content?_of_instruction? known, found]
    rfl

/-- **Every operand with a type is read from somewhere**, unless it is a block. -/
theorem exists_source (prepared : lowering.Prepared)
    (member : id ∈ lowering.subject.bodyOf lowering.function)
    (found : lowering.subject.instruction? id = some held) (used : value ∈ held.values)
    (typed : lowering.subject.typeOf value ≠ .void) :
    (∃ source, lowering.source value = .ok source ∧ lowering.Reads value source) ∨
      value ∈ lowering.subject.blocksOf lowering.function := by
  cases prepared.accepted.inScope member found used (Module.present_of_typeOf typed) with
  | literal known =>
    refine .inl ⟨_, ?_, .literal known⟩
    rw [Module.literal?] at known
    split at known
    case h_1 same => rw [Lowering.source, same, Option.some.inj known]
    case h_2 => cases known
  | global known =>
    refine .inl ⟨_, ?_, .global known (prepared.symbol_ne_empty_of_global known)⟩
    rw [Lowering.source, Module.content?_of_global? known]
  | function known =>
    refine .inl ⟨_, ?_, .function known (prepared.symbol_ne_empty_of_function known)⟩
    rw [Lowering.source, Module.content?_of_function? known]
  | parameter inside => exact .inl (prepared.source_of_home (home_of_parameter inside))
  | block inside => exact .inr inside
  | instruction inside =>
    exact .inl (prepared.source_of_home (prepared.home_of_typeOf inside typed))

/-- An operand that is no block is read from somewhere. -/
theorem source_of_operand (prepared : lowering.Prepared)
    (member : id ∈ lowering.subject.bodyOf lowering.function)
    (found : lowering.subject.instruction? id = some held) (used : value ∈ held.values)
    (typed : lowering.subject.typeOf value ≠ .void)
    (ordinary : lowering.subject.typeOf value ≠ .label) :
    ∃ source, lowering.source value = .ok source ∧ lowering.Reads value source := by
  rcases prepared.exists_source member found used typed with source | block
  · exact source
  · obtain ⟨content, isBlock, _⟩ := prepared.accepted.built.linked.owner block
    exact absurd (Module.typeOf_block isBlock) ordinary

/-- Only a block has the type of one. -/
theorem mem_blocksOf_of_label (prepared : lowering.Prepared)
    (member : id ∈ lowering.subject.bodyOf lowering.function)
    (found : lowering.subject.instruction? id = some held) (used : value ∈ held.values)
    (typed : lowering.subject.typeOf value = .label) :
    value ∈ lowering.subject.blocksOf lowering.function := by
  rcases prepared.exists_source member found used (by rw [typed]; exact nofun) with
    ⟨source, -, reads⟩ | block
  · cases reads with
    | literal known =>
      rw [Module.typeOf_literal known] at typed
      rename_i literal
      cases literal <;> cases typed
    | global known => rw [Module.typeOf_global known] at typed; cases typed
    | function known => rw [Module.typeOf_function known] at typed; cases typed
    | slot home slot size => rw [typed] at size; cases size
  · exact block

/-- Only a function has the type of one. -/
theorem function?_of_signature (prepared : lowering.Prepared) {signature : Signature}
    (member : id ∈ lowering.subject.bodyOf lowering.function)
    (found : lowering.subject.instruction? id = some held) (used : value ∈ held.values)
    (typed : lowering.subject.typeOf value = signature.type) :
    ∃ callee, lowering.subject.function? value = some callee ∧ callee.signature = signature := by
  have ordinary : lowering.subject.typeOf value ≠ .void ∧ lowering.subject.typeOf value ≠ .label := by
    rw [typed]
    exact ⟨nofun, nofun⟩
  obtain ⟨source, -, reads⟩ :=
    prepared.source_of_operand member found used ordinary.1 ordinary.2
  cases reads with
  | literal known =>
    rw [Module.typeOf_literal known] at typed
    rename_i literal
    cases literal <;> cases typed
  | global known => rw [Module.typeOf_global known] at typed; cases typed
  | function known =>
    rw [Module.typeOf_function known] at typed
    exact ⟨_, known, congrArg (fun type => type.signature?.getD signature) typed⟩
  | slot home slot size => rw [typed] at size; cases size

end Prepared

end Lowering

end SsaAmd64
