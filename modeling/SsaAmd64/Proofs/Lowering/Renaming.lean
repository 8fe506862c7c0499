/-
**The same names make the same code.**

Code generation looks at the names that a printer gives: for the symbols of functions and globals,
and in comments. Of two modules that go by the same names there, both are compiled to the same
lines, or neither is and the same construct is to blame.

* `Lowering.instruction_reprint`: the code of one instruction;
* `Printer.Exchangeable`: printers that give the same names where code is made;
* `Module.assemble_exchange`: the code of a module;
* `Printer.Alike.failureMessage`: the report of a failure.
-/

import SsaAmd64.Proofs.Lowering.Layout
import SsaAmd64.Proofs.Validation.Renaming

namespace SsaAmd64

namespace Lowering

/-- The same code to be made, with the names and the module of another printer, and with comments
or without. -/
def reprint (lowering : Lowering) (printer : Printer) (comments : Bool) : Lowering :=
  { lowering with printer, options := { lowering.options with comments } }

theorem phiCopies_renamed {m next : Module} (renamed : m.Renamed next) :
    phiCopies next = phiCopies m := by
  unfold phiCopies
  rw [renamed.instructionsOf, renamed.instruction?]

section Reprint

variable {lowering : Lowering} {printer : Printer} {comments : Bool}
variable (renamed : lowering.subject.Renamed printer.subject)
include renamed

theorem renamed_reprint : lowering.subject.Renamed (lowering.reprint printer comments).subject :=
  renamed

/-! ### Values -/

theorem operand_reprint : (lowering.reprint printer comments).operand = lowering.operand := by
  unfold operand
  rw [(renamed_reprint renamed).operand?]

theorem trailingValues_reprint :
    (lowering.reprint printer comments).trailingValues = lowering.trailingValues := by
  unfold trailingValues
  rw [(renamed_reprint renamed).operandsOf]

theorem source_reprint : (lowering.reprint printer comments).source = lowering.source := by
  unfold source
  rw [(renamed_reprint renamed).content?]
  rfl

theorem sizeOf_reprint : (lowering.reprint printer comments).sizeOf = lowering.sizeOf := by
  unfold Lowering.sizeOf
  rw [(renamed_reprint renamed).typeOf]

theorem loadInt_reprint : (lowering.reprint printer comments).loadInt = lowering.loadInt := by
  unfold loadInt
  rw [source_reprint renamed, (renamed_reprint renamed).typeOf]
  rfl

theorem storeRegister_reprint :
    (lowering.reprint printer comments).storeRegister = lowering.storeRegister := by
  unfold storeRegister
  rw [(renamed_reprint renamed).typeOf]
  rfl

theorem copyTo_reprint : (lowering.reprint printer comments).copyTo = lowering.copyTo := by
  unfold copyTo
  rw [source_reprint renamed]

/-! ### Arithmetic -/

theorem binary_reprint : (lowering.reprint printer comments).binary = lowering.binary := by
  unfold binary
  rw [(renamed_reprint renamed).typeOf, operand_reprint renamed, loadInt_reprint renamed,
    storeRegister_reprint renamed]

theorem compare_reprint : (lowering.reprint printer comments).compare = lowering.compare := by
  unfold compare
  rw [operand_reprint renamed, loadInt_reprint renamed, storeRegister_reprint renamed]

theorem convertInt_reprint : (lowering.reprint printer comments).convertInt = lowering.convertInt := by
  unfold convertInt
  rw [loadInt_reprint renamed]
  rfl

theorem convertFloat_reprint :
    (lowering.reprint printer comments).convertFloat = lowering.convertFloat := by
  unfold convertFloat
  rw [loadInt_reprint renamed]

theorem conversionLines_reprint :
    (lowering.reprint printer comments).conversionLines = lowering.conversionLines := by
  unfold conversionLines
  rw [(renamed_reprint renamed).typeOf, convertInt_reprint renamed, convertFloat_reprint renamed,
    loadInt_reprint renamed]

theorem convert_reprint : (lowering.reprint printer comments).convert = lowering.convert := by
  unfold convert
  rw [operand_reprint renamed, conversionLines_reprint renamed, storeRegister_reprint renamed]

/-! ### Memory -/

theorem alloc_reprint : (lowering.reprint printer comments).alloc = lowering.alloc := by
  unfold alloc
  rw [storeRegister_reprint renamed]
  rfl

theorem load_reprint : (lowering.reprint printer comments).load = lowering.load := by
  unfold load
  rw [operand_reprint renamed, sizeOf_reprint renamed, loadInt_reprint renamed]
  rfl

theorem store_reprint : (lowering.reprint printer comments).store = lowering.store := by
  unfold store
  rw [operand_reprint renamed, sizeOf_reprint renamed, loadInt_reprint renamed,
    copyTo_reprint renamed]

theorem addScaled_reprint : (lowering.reprint printer comments).addScaled = lowering.addScaled := by
  unfold addScaled
  rw [loadInt_reprint renamed]

theorem elementStep_reprint : (lowering.reprint printer comments).elementStep = lowering.elementStep := by
  unfold elementStep
  rw [addScaled_reprint renamed]

theorem addressStep_reprint : (lowering.reprint printer comments).addressStep = lowering.addressStep := by
  unfold addressStep
  rw [source_reprint renamed, elementStep_reprint renamed]

theorem addressSteps_reprint :
    (lowering.reprint printer comments).addressSteps = lowering.addressSteps := by
  funext instruction type sum indices
  induction indices generalizing type sum with
  | nil => rfl
  | cons index indices ih =>
    rw [addressSteps, addressSteps, addressStep_reprint renamed]
    exact congrArg (Except.bind _) (funext fun step =>
      congrArg (Except.bind · _) (ih step.type (signed64 (sum + step.constant))))

theorem gep_reprint : (lowering.reprint printer comments).gep = lowering.gep := by
  unfold gep
  rw [operand_reprint renamed, loadInt_reprint renamed, addressSteps_reprint renamed,
    (renamed_reprint renamed).typeOf, trailingValues_reprint renamed, storeRegister_reprint renamed]

/-! ### Calls -/

theorem placeInMemory_reprint :
    (lowering.reprint printer comments).placeInMemory = lowering.placeInMemory := by
  unfold placeInMemory
  rw [sizeOf_reprint renamed, copyTo_reprint renamed]

theorem placeInRegister_reprint :
    (lowering.reprint printer comments).placeInRegister = lowering.placeInRegister := by
  unfold placeInRegister
  rw [loadInt_reprint renamed]

theorem storeResult_reprint : (lowering.reprint printer comments).storeResult = lowering.storeResult := by
  unfold storeResult
  rw [(renamed_reprint renamed).producesValue, storeRegister_reprint renamed]

theorem callee_reprint : (lowering.reprint printer comments).callee = lowering.callee := by
  unfold callee
  rw [(renamed_reprint renamed).operand?, (renamed_reprint renamed).function?]

theorem call_reprint : (lowering.reprint printer comments).call = lowering.call := by
  unfold call
  rw [callee_reprint renamed, trailingValues_reprint renamed, (renamed_reprint renamed).typeOf,
    placeInMemory_reprint renamed, placeInRegister_reprint renamed, storeResult_reprint renamed]
  rfl

/-! ### Edges -/

theorem copyDirectly_reprint :
    (lowering.reprint printer comments).copyDirectly = lowering.copyDirectly := by
  unfold copyDirectly
  rw [copyTo_reprint renamed]
  rfl

theorem copyStaged_reprint : (lowering.reprint printer comments).copyStaged = lowering.copyStaged := by
  unfold copyStaged
  rw [copyTo_reprint renamed]
  rfl

theorem assignPhis_reprint : (lowering.reprint printer comments).assignPhis = lowering.assignPhis := by
  unfold assignPhis
  rw [phiCopies_renamed (renamed_reprint renamed), sizeOf_reprint renamed, copyStaged_reprint renamed,
    copyDirectly_reprint renamed]

theorem target_reprint : (lowering.reprint printer comments).target = lowering.target := by
  unfold target
  rw [(renamed_reprint renamed).operand?, (renamed_reprint renamed).block?]

theorem edge_reprint : (lowering.reprint printer comments).edge = lowering.edge := by
  unfold edge
  rw [assignPhis_reprint renamed]
  rfl

theorem branch_reprint : (lowering.reprint printer comments).branch = lowering.branch := by
  unfold branch
  rw [edge_reprint renamed, target_reprint renamed]

theorem branchIf_reprint : (lowering.reprint printer comments).branchIf = lowering.branchIf := by
  unfold branchIf
  rw [(renamed_reprint renamed).operand?, target_reprint renamed, loadInt_reprint renamed,
    edge_reprint renamed, phiCopies_renamed (renamed_reprint renamed)]
  rfl

/-! ### Functions -/

theorem saveParameter_reprint :
    (lowering.reprint printer comments).saveParameter = lowering.saveParameter := by
  unfold saveParameter
  rw [sizeOf_reprint renamed, storeRegister_reprint renamed]
  rfl

theorem saveParameters_reprint :
    (lowering.reprint printer comments).saveParameters = lowering.saveParameters := by
  unfold saveParameters
  rw [saveParameter_reprint renamed, (renamed_reprint renamed).parametersOf]
  rfl

theorem returnValue_reprint : (lowering.reprint printer comments).returnValue = lowering.returnValue := by
  unfold returnValue
  rw [loadInt_reprint renamed, sizeOf_reprint renamed, copyTo_reprint renamed]
  rfl

theorem ret_reprint : (lowering.reprint printer comments).ret = lowering.ret := by
  unfold ret
  rw [(renamed_reprint renamed).operand?, returnValue_reprint renamed]

/-- **An instruction has the same code whoever prints it.** -/
theorem instruction_reprint : (lowering.reprint printer comments).instruction = lowering.instruction := by
  unfold instruction
  rw [(renamed_reprint renamed).opcode?, alloc_reprint renamed, load_reprint renamed,
    store_reprint renamed, binary_reprint renamed, compare_reprint renamed, convert_reprint renamed,
    gep_reprint renamed, call_reprint renamed, branch_reprint renamed, branchIf_reprint renamed,
    ret_reprint renamed]

end Reprint

end Lowering

/-! ### Printers that can take the place of one another -/

namespace Printer

/-- **Two printers from which the same code is made**: they differ in stored names at most, what
gets a symbol goes by the same name, and so does everything else if comments are written. -/
structure Exchangeable (printer other : Printer) (comments : Bool) : Prop where
  renamed : printer.subject.Renamed other.subject
  functions : ∀ function ∈ printer.subject.functions, other.name function = printer.name function
  globals : ∀ global ∈ printer.subject.globals, other.name global = printer.name global
  commented : comments = true → printer.Alike other

theorem Alike.exchangeable {printer other : Printer} (alike : printer.Alike other)
    (comments : Bool) : printer.Exchangeable other comments :=
  ⟨alike.renamed, fun function _ => congrFun alike.name function,
    fun global _ => congrFun alike.name global, fun _ => alike⟩

end Printer

namespace Lowering

theorem comment_congr {comments : Bool} {first second : String}
    (same : comments = true → second = first) :
    comment comments second = comment comments first := by
  cases comments with
  | false => rfl
  | true => rw [same rfl]

section Exchange

variable {lowering : Lowering} {printer : Printer}
variable (same : lowering.printer.Exchangeable printer lowering.options.comments)
include same

theorem instructions_reprint :
    (lowering.reprint printer lowering.options.comments).instructions = lowering.instructions := by
  have line : ∀ id, comment lowering.options.comments (printer.line id) =
      comment lowering.options.comments (lowering.printer.line id) :=
    fun id => comment_congr fun commented => congrFun (same.commented commented).line id
  funext next block ids
  induction ids generalizing next with
  | nil => rfl
  | cons id ids ih =>
    rw [instructions, instructions, instruction_reprint same.renamed]
    refine congrArg (Except.bind _) (funext fun result => ?_)
    refine congrArg₂ Except.bind (ih result.2) (funext fun others => ?_)
    exact congrArg (fun text => Except.ok (text ++ result.1 ++ others.1, others.2)) (line id)

theorem blocks_reprint :
    (lowering.reprint printer lowering.options.comments).blocks = lowering.blocks := by
  funext next ids
  induction ids generalizing next with
  | nil => rfl
  | cons id ids ih =>
    rw [blocks, blocks, instructions_reprint same, (renamed_reprint same.renamed).instructionsOf]
    refine congrArg (Except.bind _) (funext fun result => ?_)
    exact congrArg (Except.bind · _) (ih result.2)

theorem header_reprint :
    (lowering.reprint printer lowering.options.comments).header = lowering.header := by
  have signature : comment lowering.options.comments (printer.signatureLine lowering.function) =
      comment lowering.options.comments (lowering.printer.signatureLine lowering.function) :=
    comment_congr fun commented => congrFun (same.commented commented).signatureLine _
  unfold header
  show comment lowering.options.comments (printer.signatureLine lowering.function) ++
    _ ++ _ ++ _ = _
  rw [signature]
  rfl

/-- **A function has the same code whoever prints it.** -/
theorem lines_reprint :
    (lowering.reprint printer lowering.options.comments).lines = lowering.lines := by
  unfold lines
  rw [saveParameters_reprint same.renamed, blocks_reprint same, header_reprint same,
    (renamed_reprint same.renamed).blocksOf]
  rfl

end Exchange

end Lowering

/-! ### Modules -/

namespace Module.Renamed

variable {printer other : Printer} (renamed : printer.subject.Renamed other.subject)
include renamed

theorem frame (function : ValueId) :
    Frame.of other.subject function = Frame.of printer.subject function := by
  have allocate : ∀ (ids : List ValueId) (frame : Frame),
      Frame.allocate other.subject frame ids = Frame.allocate printer.subject frame ids := by
    intro ids
    induction ids with
    | nil => exact fun _ => rfl
    | cons id ids ih =>
      intro frame
      rw [Frame.allocate, Frame.allocate, renamed.typeOf, renamed.opcode?]
      simp only [ih]
  rw [Frame.of, Frame.of, allocate, Frame.homes, Frame.homes, renamed.parametersOf,
    renamed.bodyOf, renamed.producesValue]

theorem lowering (options : Options) (comments : Bool) (symbols : Symbols) (next : Nat)
    (function : ValueId) :
    Lowering.of other { options with comments } symbols next function =
      (Lowering.of printer options symbols next function).map fun made =>
        (made.1.reprint other comments, made.2) := by
  unfold Lowering.of
  dsimp only
  rw [renamed.function?, renamed.blocksOf, renamed.frame]
  generalize Except.mapError Failure.abi _ = plan
  generalize Frame.of printer.subject function = frame
  cases plan with
  | error failure => rfl
  | ok plan =>
    cases frame with
    | error failure => rfl
    | ok frame => rfl

theorem initialData : Lowering.initialData other.subject = Lowering.initialData printer.subject := by
  funext symbols id size initialiser
  rw [Lowering.initialData.eq_def, Lowering.initialData.eq_def, renamed.typeOf,
    renamed.literal?]

end Module.Renamed

namespace Printer.Exchangeable

variable {printer other : Printer} {comments : Bool} (same : printer.Exchangeable other comments)
include same

theorem symbols (platform : Platform) : Symbols.of other platform = Symbols.of printer platform := by
  have functions : ∀ (ids : List ValueId) (symbols : Symbols),
      (∀ id ∈ ids, other.name id = printer.name id) →
      Symbols.claimFunctions other platform symbols ids =
        Symbols.claimFunctions printer platform symbols ids := by
    intro ids
    induction ids with
    | nil => exact fun _ _ => rfl
    | cons id ids ih =>
      intro symbols named
      obtain ⟨here, others⟩ := List.forall_mem_cons.mp named
      rw [Symbols.claimFunctions, Symbols.claimFunctions, here]
      simp only [ih _ others]
  have globals : ∀ (ids : List ValueId) (position : Nat) (symbols : Symbols),
      (∀ id ∈ ids, other.name id = printer.name id) →
      Symbols.claimGlobals other platform position symbols ids =
        Symbols.claimGlobals printer platform position symbols ids := by
    intro ids
    induction ids with
    | nil => exact fun _ _ _ => rfl
    | cons id ids ih =>
      intro position symbols named
      obtain ⟨here, others⟩ := List.forall_mem_cons.mp named
      rw [Symbols.claimGlobals, Symbols.claimGlobals, here]
      simp only [ih _ _ others]
  unfold Symbols.of
  rw [same.renamed.functions, same.renamed.globals, functions _ _ same.functions]
  exact congrArg (Except.bind _) (funext fun claimed => globals _ 0 claimed same.globals)

theorem lines_of_functions (options : Options) (commented : options.comments = comments)
    (symbols : Symbols) (next : Nat) (ids : List ValueId) :
    Lowering.functions other options symbols next ids =
      Lowering.functions printer options symbols next ids := by
  subst commented
  induction ids generalizing next with
  | nil => rfl
  | cons id ids ih =>
    have lowered : Lowering.of other options symbols next id = _ :=
      same.renamed.lowering options options.comments symbols next id
    rw [Lowering.functions, Lowering.functions, same.renamed.blocksOf, ih, lowered]
    cases made : Lowering.of printer options symbols next id with
    | error failure => rfl
    | ok result =>
      obtain ⟨lowering, after⟩ := result
      obtain ⟨rfl, rfl, _⟩ := Lowering.eq_of_made made
      show (if _ then _ else
          ((lowering.reprint other lowering.options.comments).lines after).bind _) =
        if _ then _ else (lowering.lines after).bind _
      rw [Lowering.lines_reprint same]
      cases lowering.lines after with
      | error failure => rfl
      | ok code =>
        show (if _ then _ else (Lowering.functions other _ symbols code.2 ids).bind _) =
          if _ then _ else (Lowering.functions lowering.printer _ symbols code.2 ids).bind _
        rw [ih]

theorem globalData (symbols : Symbols) :
    Lowering.globalData other symbols comments = Lowering.globalData printer symbols comments := by
  funext id
  have line : Lowering.comment comments (other.globalLine id) =
      Lowering.comment comments (printer.globalLine id) :=
    Lowering.comment_congr fun commented => congrFun (same.commented commented).globalLine id
  unfold Lowering.globalData
  rw [same.renamed.global?, same.renamed.initialData, line]

theorem dataSection (symbols : Symbols) :
    Lowering.dataSection other symbols comments = Lowering.dataSection printer symbols comments := by
  unfold Lowering.dataSection
  rw [same.renamed.globals, same.globalData]

end Printer.Exchangeable

namespace Printer.Alike

variable {printer other : Printer} (alike : printer.Alike other)
include alike

/-! ### Failures -/

theorem construct (construct : Unsupported) : construct.construct other = construct.construct printer := by
  rw [Unsupported.construct.eq_def, Unsupported.construct.eq_def, alike.name, alike.identifier]

theorem context (construct : Unsupported) : construct.context other = construct.context printer := by
  rw [Unsupported.context.eq_def, Unsupported.context.eq_def, alike.name, alike.functionTrace,
    alike.globalTrace, alike.instructionTrace]

theorem failureMessage (failure : Failure) : failure.message other = failure.message printer := by
  rw [Failure.message.eq_def, Failure.message.eq_def]
  simp only [alike.findingText, alike.construct, alike.context]

end Printer.Alike

namespace Module

variable {m next : Module}

/-- **Modules with exchangeable printers have the same code.** -/
theorem assemble_exchange {options : Options}
    (same : (Printer.of m).Exchangeable (Printer.of next) options.comments) :
    next.assemble options = m.assemble options := by
  have functions : next.functions = m.functions := same.renamed.functions
  unfold assemble
  rw [functions]
  simp only [same.symbols, same.dataSection, same.lines_of_functions options rfl]

/-- **Modules that print alike have the same code.** -/
theorem assemble_alike (alike : (Printer.of m).Alike (Printer.of next)) (options : Options) :
    next.assemble options = m.assemble options :=
  assemble_exchange (alike.exchangeable options.comments)

end Module

end SsaAmd64
