/-
**An accepted module meets no internal failure.**

Each part of code generation either succeeds with lines that carry no empty name, or fails because
of a type without layout, a type that cannot be passed or an operation that it lacks.

* `Lowering.Prepared.yields_instruction`: the code of an instruction of any kind;
* `Lowering.Prepared.yields_lines`: the code of a function;
* `Lowering.yields_dataSection`: the data section;
* `Module.Built.assemble_external`: the code of a module.
-/

import SsaAmd64.Proofs.Lowering.Correctness
import SsaAmd64.Proofs.Lowering.Incoming

namespace SsaAmd64

open Asm

namespace Lowering

variable {lowering : Lowering} {source target block id : ValueId} {held : Instruction}

namespace Prepared

/-! ### Edges -/

theorem slot_of_home (prepared : lowering.Prepared)
    (home : id ∈ Frame.homes lowering.subject lowering.function) : lowering.HasSlot id := by
  obtain ⟨displacement, _, slot, _⟩ := prepared.exists_slot home
  exact ⟨displacement, by rw [Lowering.slot, slot]⟩

theorem yields_copyDirectly (prepared : lowering.Prepared)
    {sized : List ((ValueId × ValueId) × Nat)}
    (incoming : ∀ copy ∈ sized, lowering.Incoming source target copy.1.1 copy.1.2) :
    Yields Named (lowering.copyDirectly sized) := by
  have each : ∀ copy ∈ sized, Yields Named (do
      lowering.copyTo copy.1.2 .rbp (← lowering.slot copy.1.1) copy.2) := by
    intro copy member
    obtain ⟨displacement, slot⟩ := prepared.slot_of_home (incoming copy member).home
    rw [slot]
    exact yields_copyTo (incoming copy member).read
  exact (Yields.mapM each).bind fun parts _ named => named_flatten named

theorem yields_copyStaged (prepared : lowering.Prepared)
    {sized : List ((ValueId × ValueId) × Nat)}
    (incoming : ∀ copy ∈ sized, lowering.Incoming source target copy.1.1 copy.1.2) :
    Yields Named (lowering.copyStaged sized) := by
  have staged : ∀ copy ∈ (stage 0 sized).1, lowering.Incoming source target copy.phi copy.value := by
    intro copy member
    refine incoming copy.copied ?_
    rw [← map_copied_stage 0 sized]
    exact List.mem_map_of_mem member
  have reads : ∀ copy ∈ (stage 0 sized).1, Yields Named
      (lowering.copyTo copy.value .rsp (signed64 copy.offset) copy.size) :=
    fun copy member => yields_copyTo (staged copy member).read
  have writes : ∀ copy ∈ (stage 0 sized).1.reverse, Yields Named (do
      return copyMemory .rsp (signed64 copy.offset) .rbp (← lowering.slot copy.phi) copy.size) := by
    intro copy member
    obtain ⟨displacement, slot⟩ :=
      prepared.slot_of_home (staged copy (List.mem_reverse.mp member)).home
    rw [slot]
    exact named_copyMemory
  refine (Yields.mapM reads).bind fun first _ named => ?_
  refine (Yields.mapM writes).bind fun second _ named' => ?_
  show Named _
  simp only [named_cons, named_append]
  exact ⟨by simp [Operand.full],
    ⟨named_flatten named, named_flatten named'⟩, by simp [Operand.full],
    named_nil⟩

theorem yields_assignPhis (prepared : lowering.Prepared) (source : ValueId)
    (inside : target ∈ lowering.subject.blocksOf lowering.function) :
    Yields Named (lowering.assignPhis source target) := by
  have sizes : ∀ copy ∈ phiCopies lowering.subject source target, Yields (fun _ => True) (do
      return (copy, ← lowering.sizeOf copy.1)) :=
    fun copy _ => (yields_sizeOf _ _).bind fun _ _ _ => trivial
  refine (Yields.mapM sizes).bind fun sized known _ => ?_
  have incoming := prepared.incoming_of_sized inside known
  split
  · exact prepared.yields_copyStaged incoming
  · exact prepared.yields_copyDirectly incoming

theorem yields_edge (prepared : lowering.Prepared) (source : ValueId)
    (inside : target ∈ lowering.subject.blocksOf lowering.function) :
    Yields Named (lowering.edge source target) := by
  refine (prepared.yields_assignPhis source inside).bind fun lines _ named => ?_
  exact named_append.mpr ⟨named, by simpa using prepared.label_ne_empty inside⟩

/-! ### Branches -/

/-- A target of an accepted branch is a block of the function. -/
theorem target_eq (prepared : lowering.Prepared) {slot : Nat}
    (member : id ∈ lowering.subject.bodyOf lowering.function)
    (found : lowering.subject.instruction? id = some held) (filled : held.operand slot = some target)
    (typed : lowering.subject.typeOf target = .label) :
    target ∈ lowering.subject.blocksOf lowering.function ∧
      lowering.target id slot = .ok target := by
  have inside := prepared.mem_blocksOf_of_label member found (Module.mem_values_of_operand filled) typed
  refine ⟨inside, ?_⟩
  have same : lowering.subject.operand? id slot = some target := by
    rw [Module.operand?_of_instruction? found, filled]
  obtain ⟨content, isBlock, _⟩ := prepared.accepted.built.linked.owner inside
  rw [Lowering.target, same]
  dsimp only
  rw [isBlock]
  rfl

theorem yields_branch (prepared : lowering.Prepared) (block : ValueId)
    (member : id ∈ lowering.subject.bodyOf lowering.function)
    (found : lowering.subject.instruction? id = some held) (kind : held.opcode = .br) :
    Yields Named (lowering.branch block id) := by
  obtain ⟨_, _, accepts⟩ := prepared.accepted.accepts member found
  obtain ⟨target, filled, typed⟩ := accepts.br kind
  obtain ⟨inside, known⟩ := prepared.target_eq member found filled typed
  rw [branch, known]
  exact prepared.yields_edge block inside

theorem yields_branchIf (prepared : lowering.Prepared) (next : Nat) (block : ValueId)
    (member : id ∈ lowering.subject.bodyOf lowering.function)
    (found : lowering.subject.instruction? id = some held) (kind : held.opcode = .condbr) :
    Yields (fun result => Named result.1) (lowering.branchIf next block id) := by
  obtain ⟨_, _, accepts⟩ := prepared.accepted.accepts member found
  obtain ⟨condition, filled, typed⟩ := accepts.condbr kind
  obtain ⟨ifTrue, ifFalse, filled', filled'', typed', typed''⟩ := accepts.condbrTargets kind
  obtain ⟨inside, known⟩ := prepared.target_eq member found filled' typed'
  obtain ⟨inside', known'⟩ := prepared.target_eq member found filled'' typed''
  have typed : lowering.subject.typeOf condition = .int 1 := typed
  have read := prepared.isRead member found filled (by rw [typed]; exact nofun)
    (by rw [typed]; exact nofun)
  have same : lowering.subject.operand? id 0 = some condition := by
    rw [Module.operand?_of_instruction? found, filled]
  rw [branchIf, same, known]
  show Yields _ (lowering.target id 2 >>= _)
  rw [known']
  refine (yields_loadInt read _ _).bind fun load _ loads => ?_
  have test : Named (load ++ [.arithmetic .test .quad (.full .rax) (.full .rax)]) :=
    named_append.mpr ⟨loads, by simp [Operand.full]⟩
  refine (prepared.yields_edge block inside').bind fun falseEdge _ falls => ?_
  split
  case isTrue =>
    refine named_append.mpr ⟨test, named_cons.mpr ⟨?_, falls⟩⟩
    simpa using prepared.label_ne_empty inside
  case isFalse =>
    have label := lowering.options.platform.label_ne_empty next
    refine (prepared.yields_edge block inside).bind fun trueEdge _ jumps => ?_
    refine named_append.mpr ⟨named_append.mpr ⟨test, named_cons.mpr ⟨?_, falls⟩⟩,
      named_cons.mpr ⟨?_, jumps⟩⟩
    all_goals simpa using label

/-! ### Functions -/

variable (prepared : lowering.Prepared)
variable (countable : ∀ value, (lowering.subject.typeOf value).isCountable = true)

include prepared countable

/-- **The code of an instruction of any kind.** -/
theorem yields_instruction (next : Nat) (block : ValueId)
    (member : id ∈ lowering.subject.bodyOf lowering.function) :
    Yields (fun result => Named result.1) (lowering.instruction next block id) := by
  obtain ⟨held, found⟩ := prepared.accepted.instruction? member
  have known : lowering.subject.opcode? id = some held.opcode := by
    rw [Module.opcode?, found]
    rfl
  rw [instruction, known]
  cases kind : held.opcode with
  | alloc storage =>
    exact (prepared.yields_alloc member found kind).bind fun _ _ named => named
  | load => exact (prepared.yields_load member found kind).bind fun _ _ named => named
  | store => exact (prepared.yields_store member found kind).bind fun _ _ named => named
  | binary operation =>
    exact (prepared.yields_binary member found kind).bind fun _ _ named => named
  | compare predicate =>
    exact (prepared.yields_compare member found kind).bind fun _ _ named => named
  | convert conversion type =>
    exact (prepared.yields_convert member found kind).bind fun _ _ named => named
  | gep => exact (prepared.yields_gep member found countable kind).bind fun _ _ named => named
  | call => exact (prepared.yields_call member found kind).bind fun _ _ named => named
  | br => exact (prepared.yields_branch block member found kind).bind fun _ _ named => named
  | condbr => exact prepared.yields_branchIf next block member found kind
  | ret => exact (prepared.yields_ret member found kind).bind fun _ _ named => named
  | phi type => exact named_nil
  | unreachable =>
    show Named [_]
    simp

theorem yields_instructions (next : Nat) (block : ValueId) {ids : List ValueId}
    (members : ∀ id ∈ ids, id ∈ lowering.subject.bodyOf lowering.function) :
    Yields (fun result => Named result.1) (lowering.instructions next block ids) := by
  induction ids generalizing next with
  | nil => exact named_nil
  | cons id ids ih =>
    obtain ⟨member, members⟩ := List.forall_mem_cons.mp members
    refine (prepared.yields_instruction countable next block member).bind fun first _ named => ?_
    refine (ih first.2 members).bind fun others _ named' => ?_
    show Named _
    simp only [named_append]
    exact ⟨⟨named_comment _ _, named⟩, named'⟩

theorem yields_blocks (next : Nat) {blocks : List ValueId}
    (inside : ∀ block ∈ blocks, block ∈ lowering.subject.blocksOf lowering.function) :
    Yields (fun result => Named result.1) (lowering.blocks next blocks) := by
  induction blocks generalizing next with
  | nil => exact named_nil
  | cons block blocks ih =>
    obtain ⟨here, inside⟩ := List.forall_mem_cons.mp inside
    have members : ∀ id ∈ lowering.subject.instructionsOf block,
        id ∈ lowering.subject.bodyOf lowering.function :=
      fun id listed => List.mem_flatMap.mpr ⟨block, here, listed⟩
    refine (prepared.yields_instructions countable next block members).bind fun first _ named => ?_
    refine (ih first.2 inside).bind fun others _ named' => ?_
    show Named (_ :: first.1 ++ others.1)
    simp only [named_append, named_cons]
    exact ⟨⟨by simpa using prepared.label_ne_empty here, named⟩, named'⟩

omit countable in
theorem yields_saveParameter {parameter : ValueId} (plan : ArgumentPlan)
    (listed : parameter ∈ lowering.subject.parametersOf lowering.function) :
    Yields Named (lowering.saveParameter parameter plan) := by
  have hasSlot := prepared.slot_of_home (home_of_parameter listed)
  obtain ⟨displacement, slot⟩ := hasSlot
  rw [saveParameter, slot]
  refine (yields_sizeOf _ _).bind fun size _ _ => ?_
  split
  · refine named_cons.mpr ⟨?_, named_copyMemory⟩
    cases plan.place <;> simp [copyAddress, Operand.full]
  · exact yields_storeRegister ⟨displacement, slot⟩ _
  · refine (yields_storeRegister ⟨displacement, slot⟩ _).bind fun lines _ named => ?_
    exact named_cons.mpr ⟨by simp [Operand.full], named⟩
  · exact named_copyMemory

omit countable in
theorem yields_saveParameters : Yields Named lowering.saveParameters := by
  have each : ∀ placed ∈
      (lowering.subject.parametersOf lowering.function).zip lowering.plan.arguments,
      Yields Named (lowering.saveParameter placed.1 placed.2) :=
    fun placed listed => prepared.yields_saveParameter placed.2 (List.of_mem_zip listed).1
  exact (Yields.mapM each).bind fun parts _ named => named_flatten named

omit countable in
theorem named_header {held : Function}
    (found : lowering.subject.function? lowering.function = some held) :
    Named lowering.header := by
  have symbol := prepared.symbol_ne_empty_of_function found
  rw [header]
  simp only [named_append, named_cons]
  refine ⟨⟨⟨named_comment _ _, by simpa using symbol, by simp, named_nil⟩,
    ?_⟩, by simpa using symbol, named_nil⟩
  split
  · simpa using symbol
  · exact named_nil

/-- **The code of a function.** -/
theorem yields_lines (next : Nat) {held : Function}
    (found : lowering.subject.function? lowering.function = some held) :
    Yields (fun result => Named result.1) (lowering.lines next) := by
  refine prepared.yields_saveParameters.bind fun parameters _ named => ?_
  refine (prepared.yields_blocks countable next fun _ inside => inside).bind fun body _ named' => ?_
  show Named _
  simp only [named_append]
  exact ⟨⟨⟨prepared.named_header found, named_prologue lowering⟩, named⟩, named'⟩

end Prepared

theorem yields_allocate {m : Module} {frame : Frame} {ids : List ValueId} :
    Yields (fun _ => True) (Frame.allocate m frame ids) := by
  induction ids generalizing frame with
  | nil => trivial
  | cons id ids ih =>
    refine (Yields.extentInCode _).bind fun extent _ _ => ?_
    split
    · exact (Yields.extentInCode _).bind fun storage _ _ => ih
    · exact ih

theorem yields_of (printer : Printer) (options : Options) (symbols : Symbols) (next : Nat)
    (function : ValueId) :
    Yields (fun _ => True) (Lowering.of printer options symbols next function) := by
  refine (Yields.mapError fun _ => rfl).bind fun plan _ _ => ?_
  exact yields_allocate.bind fun frame _ _ => trivial

section Module

variable {printer : Printer} {options : Options} {symbols : Symbols}

/-- The code of functions, one after the other. -/
theorem yields_functions {listed : List ValueId}
    (accepted : ∀ function ∈ listed, printer.subject.Accepted function)
    (named : Symbols.of printer options.platform = .ok symbols)
    (countable : ∀ value, (printer.subject.typeOf value).isCountable = true) (next : Nat) :
    Yields Named (functions printer options symbols next listed) := by
  induction listed generalizing next with
  | nil => exact named_nil
  | cons function others ih =>
    obtain ⟨here, rest⟩ := List.forall_mem_cons.mp accepted
    rw [Lowering.functions]
    split
    case isTrue => exact ih rest next
    case isFalse defined =>
      obtain ⟨held, found⟩ : ∃ held, printer.subject.function? function = some held := by
        refine Option.ne_none_iff_exists'.mp fun none => defined ?_
        rw [Module.blocksOf, none]
        rfl
      refine (yields_of printer options symbols next function).bind fun result made _ => ?_
      obtain ⟨lowering, after⟩ := result
      have prepared := Prepared.of_made made here named
      obtain ⟨rfl, _, _, rfl, _⟩ := eq_of_made made
      refine (prepared.yields_lines countable after found).bind fun first _ code => ?_
      exact (ih rest first.2).bind fun later _ codes => named_append.mpr ⟨code, codes⟩

/-! ### Data -/

theorem named_literalData (literal : Literal) (size : Nat) :
    Named [literalData literal size] := by
  unfold literalData
  split
  · simp
  · split <;> simp

/-- What a checked global starts out as has the type of its storage. -/
theorem yields_initialData {m : Module} {platform : Platform} {global : Global}
    (listed : m.Listed) (found : m.global? id = some global)
    (sound : m.initialFault? id global = none) (same : printer.subject = m)
    (named : Symbols.of printer platform = .ok symbols) {extent : Extent}
    (layout : global.storage.extent = .ok extent) :
    Yields Named (initialData m symbols id extent.size global.initialiser) := by
  have typed := Module.typeOf_global found
  rw [Module.initialFault?] at sound
  cases initialiser : global.initialiser with
  | zero =>
    show Named _
    split <;> simp
  | global other =>
    rw [initialiser] at sound
    dsimp only at sound
    split at sound
    case isFalse => cases sound
    case isTrue implied =>
      obtain ⟨held, isGlobal⟩ :=
        Option.isSome_iff_exists.mp (listed.isSome_of_initialiser found initialiser)
      rw [typed, Module.typeOf_global isGlobal] at implied
      obtain same' := Ty.pointer.inj implied
      rw [same'] at layout
      have size : extent.size = 8 := by rw [← Except.ok.inj layout]
      rw [initialData, if_pos size]
      have symbol : symbols.symbol other ≠ "" :=
        Symbols.symbol_ne_empty named (.inr (same ▸ listed.mem_globals isGlobal))
      show Named [_]
      simpa using symbol
  | literal value =>
    rw [initialiser] at sound
    dsimp only at sound
    split at sound
    case isFalse => cases sound
    case isTrue isLiteral =>
    split at sound
    case isFalse => cases sound
    case isTrue implied =>
      obtain ⟨held, isLiteral⟩ := Option.isSome_iff_exists.mp isLiteral
      rw [typed] at implied
      have storage := Ty.pointer.inj implied
      refine (Yields.sizeInCode _).bind fun size known _ => ?_
      rw [isLiteral]
      have equal : size = extent.size := by
        have known := ok_of_mapError known
        rw [← storage, Ty.size, layout] at known
        exact (Except.ok.inj known).symm
      show Yields _ (if _ then _ else _)
      rw [if_pos equal]
      exact named_literalData held _

theorem yields_globalData {platform : Platform} (listed : printer.subject.Listed)
    (sound : ∀ global, printer.subject.global? id = some global →
      printer.subject.initialFault? id global = none)
    (named : Symbols.of printer platform = .ok symbols) (comments : Bool) :
    Yields Named (globalData printer symbols comments id) := by
  rw [globalData]
  cases found : printer.subject.global? id with
  | none => exact named_nil
  | some global =>
    have symbol : symbols.symbol id ≠ "" :=
      Symbols.symbol_ne_empty named (.inr (listed.mem_globals found))
    refine (Yields.extentInCode _).bind fun extent known layout => ?_
    refine (yields_initialData listed found (sound global found) rfl named
      (ok_of_mapError known)).bind fun content _ data => ?_
    show Named _
    simp only [named_append, named_cons]
    refine ⟨⟨⟨named_comment _ _, ?_⟩, by simp, by simpa using symbol,
      named_nil⟩, data⟩
    split
    · exact named_nil
    · simpa using symbol

/-- **The data section.** -/
theorem yields_dataSection {platform : Platform} (listed : printer.subject.Listed)
    (checked : printer.subject.checkGlobals = .ok ())
    (named : Symbols.of printer platform = .ok symbols) (comments : Bool) :
    Yields Named (dataSection printer symbols comments) := by
  have sound : ∀ id ∈ printer.subject.globals, ∀ global, printer.subject.global? id = some global →
      printer.subject.initialFault? id global = none := by
    intro id member global found
    have passed := ok_of_forM checked id member
    rw [found, Option.bind_some] at passed
    split at passed
    case h_1 => cases passed
    case h_2 none => exact none
  rw [dataSection]
  cases globals : printer.subject.globals with
  | nil => exact named_nil
  | cons first others =>
    rw [globals] at sound
    refine (Yields.mapM fun id member =>
      yields_globalData listed (sound id member) named comments).bind fun parts _ data => ?_
    exact named_cons.mpr ⟨by simp, named_flatten data⟩

end Module

end Lowering

/-! ### Symbols -/

namespace Symbols

variable {printer : Printer} {platform : Platform}

theorem yields_claim (symbols : Symbols) (id : ValueId) (symbol : String) :
    Yields (fun _ => True) (symbols.claim id symbol) := by
  rw [claim]
  split
  · exact Yields.unsupported rfl
  · trivial

theorem yields_of (printer : Printer) (platform : Platform) :
    Yields (fun _ => True) (Symbols.of printer platform) := by
  have functions : ∀ (ids : List ValueId) (symbols : Symbols),
      Yields (fun _ => True) (claimFunctions printer platform symbols ids) := by
    intro ids
    induction ids with
    | nil => exact fun _ => trivial
    | cons id ids ih =>
      intro symbols
      rw [claimFunctions]
      split
      · exact (yields_claim _ _ _).bind fun next _ _ => ih next
      · exact Yields.unsupported rfl
  have globals : ∀ (ids : List ValueId) (position : Nat) (symbols : Symbols),
      Yields (fun _ => True) (claimGlobals printer platform position symbols ids) := by
    intro ids
    induction ids with
    | nil => exact fun _ _ => trivial
    | cons id ids ih =>
      intro position symbols
      rw [claimGlobals]
      split
      · exact (yields_claim _ _ _).bind fun next _ _ => ih _ next
      · exact (yields_claim _ _ _).bind fun next _ _ => ih _ _
  exact (functions _ _).bind fun first _ _ => globals _ _ _

end Symbols

namespace Module

variable {m : Module}

theorem Built.yields_assemble (built : Built m) (valid : m.validate = .ok ())
    (countable : ∀ value, (m.typeOf value).isCountable = true) (options : Options) :
    Yields Named (m.assemble options) := by
  have checked : m.checkGlobals = .ok () := by
    obtain ⟨_, _, rest⟩ := ok_of_bind valid
    obtain ⟨_, _, rest⟩ := ok_of_bind rest
    obtain ⟨_, _, rest⟩ := ok_of_bind rest
    obtain ⟨_, _, rest⟩ := ok_of_bind rest
    obtain ⟨_, _, rest⟩ := ok_of_bind rest
    obtain ⟨_, _, rest⟩ := ok_of_bind rest
    obtain ⟨_, _, rest⟩ := ok_of_bind rest
    exact (ok_of_bind rest).elim fun _ both => both.2
  refine (Symbols.yields_of (Printer.of m) options.platform).bind fun symbols named _ => ?_
  refine (Lowering.yields_dataSection built.listed checked named _).bind fun data _ named' => ?_
  have accepted : ∀ function ∈ m.functions, m.Accepted function :=
    fun function member => ⟨built, valid, member⟩
  refine (Lowering.yields_functions accepted named countable 0).bind fun code _ named'' => ?_
  show Named _
  simp only [named_append, named_cons]
  refine ⟨⟨⟨named', by simp, named_nil⟩, named''⟩, ?_⟩
  rw [Lowering.footer]
  split
  · simp
  · exact named_nil

/-- Only what is there has a type. -/
theorem isCountable_of_ids (countable : ∀ id ∈ m.ids, (m.typeOf id).isCountable = true)
    (value : ValueId) : (m.typeOf value).isCountable = true := by
  cases found : m.content? value with
  | none =>
    rw [typeOf_of_absent found]
    rfl
  | some content =>
    exact countable value (List.mem_map.mpr ⟨value.index,
      List.mem_range.mpr (lt_size_of_content? found), rfl⟩)

/-- **For an accepted module, code generation does not fail internally**, and no label or symbol in
the code is empty. The code counts the fields of a struct in words. -/
theorem Built.assemble_external (built : Built m) (valid : m.validate = .ok ())
    (countable : ∀ id ∈ m.ids, (m.typeOf id).isCountable = true) (options : Options) :
    (∀ failure, m.assemble options = .error failure → failure.isInternal = false) ∧
      ∀ program, m.assemble options = .ok program → Named program := by
  have yields := built.yields_assemble valid (isCountable_of_ids countable) options
  exact ⟨fun _ failed => yields.external failed, fun _ done => yields.sound done⟩

/-- The code for the greatest common divisor has jumps and labels, none of which is empty. -/
theorem assemble_external_gcd : ∃ program, gcd.assemble Options.default = .ok program ∧
    Named program ∧ (labels program).length = 5 := by
  have made : (gcd.assemble Options.default).toOption.any
      (fun program => (labels program).length = 5) = true := by decide +kernel
  cases assembled : gcd.assemble Options.default with
  | error failure =>
    rw [assembled] at made
    cases made
  | ok program =>
    rw [assembled] at made
    have sound := Built.assemble_external (built_builtBy "gcd" gcdSteps) validate_gcd
      (by decide +kernel) Options.default
    exact ⟨program, rfl, sound.2 program assembled, of_decide_eq_true made⟩

end Module

end SsaAmd64
