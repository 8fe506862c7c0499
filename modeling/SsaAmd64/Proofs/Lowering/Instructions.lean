/-
**The code of an accepted instruction.**

It is made without an internal failure, from lines that carry no empty name. What an instruction
computes with has been checked to be there and to have a type that is read from somewhere. Values
with a type that has no layout have stopped the frame or the call plan before.

* `Lowering.IsRead`: an operand that is read from somewhere;
* `Lowering.Prepared.yields_alloc` and the like: the code of one instruction.
-/

import SsaAmd64.Proofs.Abi.Passed
import SsaAmd64.Proofs.Lowering.Fields
import SsaAmd64.Proofs.Lowering.Outcome

namespace SsaAmd64

open Asm

namespace Lowering

variable {lowering : Lowering} {function block id value : ValueId} {held : Instruction}
variable {base sourceBase : Register} {start sourceStart : Int} {size : Nat}

/-- An operand that is read from somewhere. -/
def IsRead (lowering : Lowering) (value : ValueId) : Prop :=
  ∃ source, lowering.source value = .ok source ∧ lowering.Reads value source

/-- A value with a home slot. -/
def HasSlot (lowering : Lowering) (value : ValueId) : Prop :=
  ∃ displacement, lowering.slot value = .ok displacement

/-! ### Pieces of code -/

theorem named_of_flatMap {α : Type} {elements : List α} {part : α → List Line}
    (each : ∀ element, Named (part element)) : Named (elements.flatMap part) := by
  intro line member
  obtain ⟨element, _, inside⟩ := List.mem_flatMap.mp member
  exact each element line inside

theorem named_copyMemory :
    Named (copyMemory sourceBase sourceStart base start size) :=
  named_of_flatMap fun _ => by simp

theorem named_storeBytes (bytes : List UInt8) : Named (storeBytes bytes base start) := by
  refine named_of_flatMap fun piece => ?_
  dsimp only [storePiece]
  split <;> simp [Operand.full]

theorem named_loadImmediate (constant : Int) (register : Register) :
    Named [loadImmediate constant register] := by
  rw [loadImmediate]
  split <;> simp [Operand.full]

theorem named_adjustStack (operation : Arithmetic) (size : Nat) :
    Named (adjustStack operation size) := by
  rw [adjustStack]
  split <;> simp [Operand.full]

theorem named_maskBit (type : Ty) : Named (maskBit type) := by
  rw [maskBit]
  split <;> simp [Operand.full]

theorem named_onRegisters (operation : Arithmetic) : Named (onRegisters operation) := by
  simp [onRegisters, Operand.full]

theorem named_operationLines {operation : BinaryOp} {lines : List Line}
    (found : operationLines operation = some lines) : Named lines := by
  cases operation <;> cases found <;>
    simp [onRegisters, shiftRegister, divideRegisters, takeRemainder, Operand.full]

theorem named_addConstant (constant : Int) : Named (addConstant constant) := by
  rw [addConstant]
  split
  · exact named_nil
  · split <;> simp [Operand.full]

theorem named_epilogue : Named epilogue := by
  simp [epilogue, savedRegisters, Operand.full]

theorem named_prologue (lowering : Lowering) : Named lowering.prologue := by
  rw [prologue]
  have adjust := named_adjustStack .sub lowering.frame.size
  split <;> simp [savedRegisters, Operand.full, adjust]

theorem named_comment (comments : Bool) (text : String) : Named (comment comments text) := by
  rw [comment]
  split <;> simp

/-! ### Moving values -/

theorem yields_registerWidth (lowering : Lowering) (type : Ty) :
    Yields (fun _ => True) (lowering.registerWidth type) := by
  refine (Yields.sizeInCode type).bind fun size _ _ => ?_
  split
  · trivial
  · exact Yields.unsupported rfl

theorem yields_loadInt (read : lowering.IsRead value) (register : Register) (signed : Bool) :
    Yields Named (lowering.loadInt value register signed) := by
  obtain ⟨source, same, reads⟩ := read
  rw [loadInt, same]
  cases reads with
  | literal found =>
    refine (lowering.yields_registerWidth _).bind fun width _ _ => ?_
    exact named_loadImmediate _ _
  | global found nonempty | function found nonempty =>
    show Named [_]
    simpa using nonempty
  | slot home slot size =>
    refine (lowering.yields_registerWidth _).bind fun width _ _ => ?_
    show Named (_ :: _)
    split <;> simp

theorem yields_storeRegister (slot : lowering.HasSlot value) (register : Register) :
    Yields Named (lowering.storeRegister register value) := by
  obtain ⟨displacement, same⟩ := slot
  rw [storeRegister, same]
  refine (lowering.yields_registerWidth _).bind fun width _ _ => ?_
  show Named [_]
  simp

theorem yields_copyTo (read : lowering.IsRead value) :
    Yields Named (lowering.copyTo value base start size) := by
  obtain ⟨source, same, reads⟩ := read
  rw [copyTo, same]
  cases reads with
  | literal found => exact named_storeBytes _
  | global found nonempty | function found nonempty =>
    show Named [_, _]
    simpa [Operand.full] using nonempty
  | slot home slot size => exact named_copyMemory

theorem yields_convertInt (read : lowering.IsRead value) (target : Ty) (signed : Bool) :
    Yields Named (lowering.convertInt value target signed) := by
  refine (lowering.yields_registerWidth _).bind fun _ _ _ => ?_
  refine (yields_loadInt read _ _).bind fun lines _ named => ?_
  exact named_append.mpr ⟨named, named_maskBit _⟩

theorem yields_convertFloat (read : lowering.IsRead value) (operation : VectorConversion)
    (result : Register) : Yields Named (lowering.convertFloat value operation result) := by
  refine (yields_loadInt read _ _).bind fun lines _ named => ?_
  refine named_append.mpr ⟨named, ?_⟩
  simp [Operand.full]

theorem yields_conversionLines (read : lowering.IsRead value) (id : ValueId)
    (conversion : Conversion) (target : Ty) :
    Yields Named (lowering.conversionLines id value conversion target) := by
  cases conversion with
  | sext | zext | trunc | bitcast | ptrtoint | inttoptr => exact yields_convertInt read _ _
  | fext | ftrunc =>
    refine (yields_convertFloat read _ _).bind fun lines _ named => ?_
    exact named_append.mpr ⟨named, by simp [Operand.full]⟩
  | ftoui | ftosi =>
    rw [conversionLines]
    split
    · exact Yields.unsupported rfl
    · refine (yields_convertFloat read _ _).bind fun lines _ named => ?_
      exact named_append.mpr ⟨named, named_maskBit _⟩
  | uitof | sitof =>
    rw [conversionLines]
    split
    · exact Yields.unsupported rfl
    · refine (yields_loadInt read _ _).bind fun lines _ named => ?_
      exact named_append.mpr ⟨named, by simp [Operand.full]⟩

theorem yields_sizeOf (lowering : Lowering) (value : ValueId) :
    Yields (fun size => (lowering.subject.typeOf value).size = .ok size) (lowering.sizeOf value) :=
  Yields.sizeInCode _

theorem yields_placeInMemory (read : lowering.IsRead value) (plan : ArgumentPlan) :
    Yields Named (lowering.placeInMemory value plan) := by
  refine (yields_sizeOf _ _).bind fun size _ _ => ?_
  split
  · refine (yields_copyTo read).bind fun lines _ named => ?_
    exact named_append.mpr ⟨named, by simp [Operand.full]⟩
  · exact yields_copyTo read
  · exact yields_copyTo read
  · exact named_nil

theorem yields_placeInRegister (read : lowering.IsRead value) (plan : ArgumentPlan) :
    Yields Named (lowering.placeInRegister value plan) := by
  rw [placeInRegister]
  split
  · show Named [_]
    simp
  · exact yields_loadInt read _ _
  · rename_i register companion _ _
    refine (yields_loadInt read _ _).bind fun lines _ named => ?_
    refine named_append.mpr ⟨named, ?_⟩
    cases companion <;> simp [Operand.full]
  · exact named_nil

theorem yields_passResultAddress {plan : CallPlan}
    (slot : plan.result = some .memory → lowering.HasSlot id) :
    Yields Named (lowering.passResultAddress id plan) := by
  rw [passResultAddress]
  split
  case isTrue inMemory =>
    obtain ⟨displacement, slot⟩ := slot inMemory
    rw [slot]
    show Named [_]
    simp
  case isFalse => exact named_nil

theorem yields_storeResult (slot : lowering.subject.producesValue id = true → lowering.HasSlot id)
    (plan : CallPlan) : Yields Named (lowering.storeResult id plan) := by
  rw [storeResult]
  split
  case isTrue valued =>
    split
    · exact yields_storeRegister (slot valued) _
    · refine (yields_storeRegister (slot valued) _).bind fun lines _ named => ?_
      show Named (_ :: lines)
      simpa [Operand.full] using named
    · exact named_nil
  case isFalse => exact named_nil

theorem yields_returnValue (read : lowering.plan.result.isSome → lowering.IsRead value) :
    Yields Named (lowering.returnValue value) := by
  rw [returnValue]
  cases result : lowering.plan.result with
  | none => exact named_nil
  | some passing =>
    have read := read (by rw [result]; rfl)
    cases passing with
    | integer => exact yields_loadInt read _ _
    | vector =>
      refine (yields_loadInt read _ _).bind fun lines _ named => ?_
      exact named_append.mpr ⟨named, by simp [Operand.full]⟩
    | memory =>
      refine (yields_sizeOf _ _).bind fun size _ _ => ?_
      refine (yields_copyTo read).bind fun lines _ named => ?_
      exact named_append.mpr ⟨named, by simp [Operand.full]⟩

/-! ### Indices -/

theorem yields_addScaled {index : ValueId} (read : lowering.IsRead index) (stride : Int) :
    Yields Named (lowering.addScaled index stride) := by
  refine (yields_loadInt read _ _).bind fun load _ named => ?_
  refine named_append.mpr ⟨named_append.mpr ⟨named, ?_⟩, named_onRegisters _⟩
  split
  · exact named_nil
  · split <;> simp [Operand.full]

theorem yields_elementStep {index : ValueId} {element : Ty} (read : lowering.IsRead index)
    (constant : Option Int) :
    Yields (fun result => Named result.lines) (lowering.elementStep index constant element) := by
  refine (Yields.extentInCode element).bind fun extent _ _ => ?_
  cases constant with
  | some value => exact named_nil
  | none => exact (yields_addScaled read _).bind fun lines _ named => named

/-- An index that leads somewhere has code, or is not supported. -/
theorem yields_addressStep {index : ValueId} {position : Nat} {type next : Ty}
    (leads : lowering.subject.StepsTo position (some index) type next)
    (countable : type.isCountable = true) (read : lowering.IsRead index) (id : ValueId) :
    Yields (fun result => Named result.lines) (lowering.addressStep id index type) := by
  have ⟨source, known, reads⟩ := read
  cases leads with
  | pointer | array =>
    rw [addressStep, known]
    exact yields_elementStep read _
  | @field _ _ width value inRange packed fields _ isLiteral named =>
    rw [addressStep_of_literal isLiteral,
      fieldStep_eq inRange named (length_le_of_isCountable countable)]
    split
    case isTrue => exact Yields.unsupported rfl
    case isFalse => exact (Yields.mapError fun _ => rfl).bind fun offset _ _ => named_nil

/-- **Indices that lead somewhere are followed by the code.** -/
theorem yields_addressSteps {indices : List ValueId} {position : Nat} {type target : Ty}
    (leads : lowering.subject.LeadsTo position (indices.map some) type target)
    (countable : type.isCountable = true) (reads : ∀ index ∈ indices, lowering.IsRead index)
    (id : ValueId) (sum : Int) :
    Yields (fun result => Named result.1) (lowering.addressSteps id type sum indices) := by
  induction indices generalizing position type sum with
  | nil => exact named_nil
  | cons index indices ih =>
    obtain ⟨read, reads⟩ := List.forall_mem_cons.mp reads
    cases leads with
    | step one leads =>
      refine (yields_addressStep one countable read id).bind fun result done named => ?_
      obtain rfl := type_of_addressStep one countable done
      refine (ih leads (isCountable_of_stepsTo one countable) reads _).bind fun others _ named' => ?_
      exact named_append.mpr ⟨named, named'⟩

/-! ### Arguments and results -/

/-- Every argument that a plan has a place for is read from somewhere. -/
theorem isRead_of_planned {arguments : List ValueId} {returned : Ty} {plan : CallPlan}
    (planned : lowering.convention.plan (arguments.map lowering.subject.typeOf) returned = .ok plan)
    (reads : ∀ argument ∈ arguments, lowering.subject.typeOf argument ≠ .void →
      lowering.subject.typeOf argument ≠ .label → lowering.IsRead argument) :
    ∀ argument ∈ arguments, lowering.IsRead argument := by
  intro argument listed
  obtain ⟨passing, classified⟩ :=
    Convention.classify_of_plan planned _ (List.mem_map_of_mem listed)
  have ordinary := Convention.isPassed_of_classify classified
  exact reads argument listed ordinary.1 ordinary.2

namespace Prepared

/-- A result in memory has a home. -/
theorem home_of_result (prepared : lowering.Prepared)
    (member : id ∈ lowering.subject.bodyOf lowering.function) {types : List Ty} {returned : Ty}
    {plan : CallPlan} (planned : lowering.convention.plan types returned = .ok plan)
    (result : lowering.subject.typeOf id = returned) (inMemory : plan.result = some .memory) :
    id ∈ Frame.homes lowering.subject lowering.function := by
  refine prepared.home_of_typeOf member ?_
  rw [result]
  exact (Convention.isPassed_of_result planned (by rw [inMemory]; rfl)).1

theorem hasSlot (prepared : lowering.Prepared)
    (member : id ∈ lowering.subject.bodyOf lowering.function)
    (typed : lowering.subject.typeOf id ≠ .void) : lowering.HasSlot id := by
  obtain ⟨displacement, _, slot, _⟩ := prepared.exists_slot (prepared.home_of_typeOf member typed)
  exact ⟨displacement, by rw [Lowering.slot, slot]⟩

variable (prepared : lowering.Prepared)
variable (member : id ∈ lowering.subject.bodyOf lowering.function)
variable (found : lowering.subject.instruction? id = some held)

include prepared member found

/-- What an instruction computes with is read from somewhere. -/
theorem isRead {slot : Nat} (filled : held.operand slot = some value)
    (typed : lowering.subject.typeOf value ≠ .void)
    (ordinary : lowering.subject.typeOf value ≠ .label) : lowering.IsRead value :=
  prepared.source_of_operand member found (Module.mem_values_of_operand filled) typed ordinary

theorem isRead_of_trailing {values : List ValueId} (filled : held.operands.tail = values.map some)
    (listed : value ∈ values) (typed : lowering.subject.typeOf value ≠ .void)
    (ordinary : lowering.subject.typeOf value ≠ .label) : lowering.IsRead value := by
  refine prepared.source_of_operand member found ?_ typed ordinary
  refine List.mem_filterMap.mpr ⟨some value, List.mem_of_mem_tail ?_, rfl⟩
  rw [filled]
  exact List.mem_map_of_mem listed

/-! ### Storage, loads and stores -/

theorem yields_alloc {storage : Ty} (kind : held.opcode = .alloc storage) :
    Yields Named (lowering.alloc id) := by
  have typed : lowering.subject.typeOf id = .pointer storage := Module.typeOf_alloc found kind
  have ordinary : lowering.subject.typeOf id ≠ .void := by simp [typed]
  have opcode : lowering.subject.opcode? id = some (.alloc storage) := by
    rw [Module.opcode?, found, ← kind]
    rfl
  obtain ⟨displacement, known⟩ := Frame.storage?_of_alloc prepared.framed
    (prepared.home_of_typeOf member ordinary) opcode
  rw [alloc, known]
  refine (yields_storeRegister (prepared.hasSlot member ordinary) _).bind fun lines _ named => ?_
  show Named (_ :: lines)
  simpa using named

theorem yields_load (kind : held.opcode = .load) : Yields Named (lowering.load id) := by
  obtain ⟨block, position, accepts⟩ := prepared.accepted.accepts member found
  obtain ⟨pointer, element, filled, typed, sound⟩ := accepts.load kind
  have typed : lowering.subject.typeOf pointer = .pointer element := typed
  have present : lowering.subject.typeOf pointer ≠ .void := by simp [typed]
  have loaded : lowering.subject.typeOf id = element := by
    rw [Module.typeOf_derived found filled present, Module.resultType, kind, typed]
    rfl
  have valued : lowering.subject.typeOf id ≠ .void := by
    rw [loaded]
    rintro rfl
    cases sound
  obtain ⟨displacement, slot⟩ := prepared.hasSlot member valued
  have read := prepared.isRead member found filled present (by simp [typed])
  rw [load, operand_eq found filled]
  refine (lowering.yields_sizeOf id).bind fun size _ _ => ?_
  rw [slot]
  refine (yields_loadInt read _ _).bind fun lines _ named => ?_
  exact named_append.mpr ⟨named, named_copyMemory⟩

theorem yields_store (kind : held.opcode = .store) : Yields Named (lowering.store id) := by
  obtain ⟨block, position, accepts⟩ := prepared.accepted.accepts member found
  obtain ⟨pointer, value, filled, filled', typed, sound⟩ := accepts.store kind
  have typed : lowering.subject.typeOf pointer = .pointer (lowering.subject.typeOf value) := typed
  have read := prepared.isRead member found filled (by simp [typed])
    (by simp [typed])
  rw [store, operand_eq found filled]
  show Yields Named (lowering.operand id 1 >>= _)
  rw [operand_eq found filled']
  refine (lowering.yields_sizeOf value).bind fun size _ sized => ?_
  have read' := prepared.isRead member found filled'
    (fun none => by rw [none] at sized; cases sized) (fun label => by rw [label] at sized; cases sized)
  refine (yields_loadInt read _ _).bind fun lines _ named => ?_
  refine (yields_copyTo read').bind fun lines' _ named' => ?_
  exact named_append.mpr ⟨named, named'⟩

/-! ### Arithmetic -/

theorem yields_binary {operation : BinaryOp} (kind : held.opcode = .binary operation) :
    Yields Named (lowering.binary id operation) := by
  obtain ⟨block, position, accepts⟩ := prepared.accepted.accepts member found
  obtain ⟨left, right, filled, filled', same, present, scalar⟩ := accepts.scalars kind
  have same : lowering.subject.typeOf right = lowering.subject.typeOf left := same
  have typed : lowering.subject.typeOf id = lowering.subject.typeOf left :=
    Module.typeOf_binary found kind filled
  have slot := prepared.hasSlot member (typed ▸ present)
  have read := prepared.isRead member found filled present scalar
  have read' := prepared.isRead member found filled' (same ▸ present) (same ▸ scalar)
  rw [binary]
  split
  · exact Yields.unsupported rfl
  · show Yields Named (lowering.operand id 0 >>= _)
    rw [operand_eq found filled]
    show Yields Named (lowering.operand id 1 >>= _)
    rw [operand_eq found filled']
    refine (yields_loadInt read _ _).bind fun first _ named => ?_
    refine (yields_loadInt read' _ _).bind fun second _ named' => ?_
    cases lines : operationLines operation with
    | none => exact Yields.unsupported rfl
    | some lines =>
      refine (yields_storeRegister slot _).bind fun stores _ named'' => ?_
      show Named _
      simp only [named_append]
      exact ⟨⟨⟨⟨named, named'⟩, named_operationLines ‹_›⟩, named_maskBit _⟩, named''⟩

theorem yields_compare {predicate : Predicate} (kind : held.opcode = .compare predicate) :
    Yields Named (lowering.compare id predicate) := by
  obtain ⟨block, position, accepts⟩ := prepared.accepted.accepts member found
  obtain ⟨left, right, width, filled, filled', typed, typed'⟩ :=
    RuleContext.operands_of_compare accepts.rules kind
  have typed : lowering.subject.typeOf left = .int width := typed
  have typed' : lowering.subject.typeOf right = .int width := typed'
  have slot := prepared.hasSlot member (by simp [Module.typeOf_compare found kind])
  have read := prepared.isRead member found filled (by simp [typed])
    (by simp [typed])
  have read' := prepared.isRead member found filled' (by simp [typed'])
    (by simp [typed'])
  rw [compare, operand_eq found filled]
  show Yields Named (lowering.operand id 1 >>= _)
  rw [operand_eq found filled']
  refine (yields_loadInt read _ _).bind fun first _ named => ?_
  refine (yields_loadInt read' _ _).bind fun second _ named' => ?_
  refine (yields_storeRegister slot _).bind fun stores _ named'' => ?_
  show Named _
  simp only [named_append, named_cons, named_nil]
  exact ⟨⟨⟨⟨named, named'⟩, named_onRegisters _⟩, by simp, trivial⟩, named''⟩

theorem yields_convert {conversion : Conversion} {target : Ty}
    (kind : held.opcode = .convert conversion target) :
    Yields Named (lowering.convert id conversion target) := by
  obtain ⟨block, position, accepts⟩ := prepared.accepted.accepts member found
  obtain ⟨value, filled, typed, ordinary, valued⟩ := accepts.converted kind
  have slot := prepared.hasSlot member (by rw [Module.typeOf_convert found kind]; exact valued)
  have read := prepared.isRead member found filled typed ordinary
  rw [convert, operand_eq found filled]
  refine (yields_conversionLines read id conversion target).bind fun lines _ named => ?_
  refine (yields_storeRegister slot _).bind fun stores _ named' => ?_
  exact named_append.mpr ⟨named, named'⟩

/-! ### Addresses -/

theorem yields_gep (countable : ∀ value, (lowering.subject.typeOf value).isCountable = true)
    (kind : held.opcode = .gep) : Yields Named (lowering.gep id) := by
  obtain ⟨block, position, accepts⟩ := prepared.accepted.accepts member found
  have checked : (RuleContext.of lowering.subject lowering.function).checkGep held = .ok () := by
    rw [← accepts.rules, RuleContext.checkRules, kind]
  obtain ⟨base, element, indices, target, filled, typed, same, integers, leads⟩ :=
    RuleContext.of_checkGep checked kind
  rw [RuleContext.subject_of] at typed integers leads
  have present : lowering.subject.typeOf base ≠ .void := by simp [typed]
  have addressed : lowering.subject.typeOf id = .pointer target := by
    rw [Module.typeOf_derived found filled present, Module.resultType, kind, typed]
    exact Module.addressType_of_leadsTo (same ▸ leads)
  have slot := prepared.hasSlot member (by simp [addressed])
  have read := prepared.isRead member found filled present (by simp [typed])
  have reads : ∀ index ∈ indices, lowering.IsRead index := by
    intro index listed
    obtain ⟨width, integer⟩ := integers index listed
    exact prepared.isRead_of_trailing member found same listed (by simp [integer])
      (by simp [integer])
  rw [gep, operand_eq found filled]
  refine (yields_loadInt read _ _).bind fun load _ named => ?_
  rw [trailingValues_eq found same, typed]
  refine (yields_addressSteps leads (typed ▸ countable base) reads id 0).bind
    fun steps _ named' => ?_
  refine (yields_storeRegister slot _).bind fun stores _ named'' => ?_
  show Named _
  simp only [named_append]
  exact ⟨⟨⟨named, named'⟩, named_addConstant _⟩, named''⟩

/-! ### Calls and returns -/

/-- **What a call names**: a function of the module, and values for its parameters and for more. All
that are passed are read from somewhere. -/
theorem exists_callee (kind : held.opcode = .call) :
    ∃ callee function, lowering.callee id = .ok (callee, function) ∧
      lowering.subject.operand? id 0 = some callee ∧
      lowering.subject.function? callee = some function ∧
      lowering.subject.typeOf id = function.signature.result ∧
      function.signature.parameters <+:
        (lowering.trailingValues id).map lowering.subject.typeOf ∧
      ∀ argument ∈ lowering.trailingValues id, lowering.subject.typeOf argument ≠ .void →
        lowering.subject.typeOf argument ≠ .label → lowering.IsRead argument := by
  obtain ⟨block, position, accepts⟩ := prepared.accepted.accepts member found
  obtain ⟨callee, signature, arguments, filled, typed, same, firstClass, passed⟩ :=
    accepts.call kind
  have typed : lowering.subject.typeOf callee = signature.type := typed
  obtain ⟨function, isFunction, rfl⟩ :=
    prepared.function?_of_signature member found (Module.mem_values_of_operand filled) typed
  have named : lowering.subject.operand? id 0 = some callee := by
    rw [Module.operand?_of_instruction? found, filled]
  rw [trailingValues_eq found same]
  refine ⟨callee, function, ?_, named, isFunction, ?_, passed, fun argument listed =>
    prepared.isRead_of_trailing member found same listed⟩
  · rw [Lowering.callee, named]
    dsimp only
    rw [isFunction]
  · rw [Module.typeOf_derived found filled (by simp [typed, Signature.type]),
      Module.resultType, kind, typed]
    rfl

theorem yields_call (kind : held.opcode = .call) : Yields Named (lowering.call id) := by
  obtain ⟨callee, function, known, _, isFunction, result, _, reads⟩ :=
    prepared.exists_callee member found kind
  rw [call, known]
  show Yields Named (Except.mapError _ _ >>= _)
  refine (Yields.mapError fun _ => rfl).bind fun plan _ planned => ?_
  have reads : ∀ placed ∈ (lowering.trailingValues id).zip plan.arguments,
      lowering.IsRead placed.1 := fun placed listed =>
    isRead_of_planned planned reads _ (List.of_mem_zip listed).1
  refine (Yields.mapM fun placed listed => yields_placeInMemory (reads placed listed) _).bind
    fun toMemory _ inMemory => ?_
  refine (Yields.mapM fun placed listed => yields_placeInRegister (reads placed listed) _).bind
    fun toRegisters _ inRegisters => ?_
  have slot : plan.result = some .memory → lowering.HasSlot id := fun inMemory => by
    obtain ⟨displacement, _, slot, _⟩ :=
      prepared.exists_slot (prepared.home_of_result member planned result inMemory)
    exact ⟨displacement, by rw [Lowering.slot, slot]⟩
  have slot' : lowering.subject.producesValue id = true → lowering.HasSlot id := by
    intro valued
    refine prepared.hasSlot member fun none => ?_
    rw [Module.producesValue, none] at valued
    simp [Ty.isVoid] at valued
  refine (yields_passResultAddress slot).bind fun resultAddress _ addressed => ?_
  refine (yields_storeResult slot' plan).bind fun stores _ stored => ?_
  show Named _
  simp only [named_append, named_cons]
  refine ⟨⟨⟨⟨⟨⟨⟨named_adjustStack _ _, named_flatten inMemory⟩, named_flatten inRegisters⟩,
    addressed⟩, ?_⟩, ?_, named_nil⟩, named_adjustStack _ _⟩, stored⟩
  · rw [passVectorCount]
    split <;> simp
  · simpa using prepared.symbol_ne_empty_of_function isFunction

theorem yields_ret (kind : held.opcode = .ret) : Yields Named (lowering.ret id) := by
  obtain ⟨block, position, accepts⟩ := prepared.accepted.accepts member found
  rw [ret, Module.operand?_of_instruction? found]
  cases filled : held.operand 0 with
  | none => exact named_epilogue
  | some value =>
    have typed : lowering.subject.typeOf value =
        (RuleContext.of lowering.subject lowering.function).resultType := accepts.ret kind filled
    have returned := accepts.returned kind filled
    have read : lowering.plan.result.isSome → lowering.IsRead value := by
      intro returns
      have ordinary : lowering.subject.typeOf value ≠ .void ∧
          lowering.subject.typeOf value ≠ .label := by
        rw [typed]
        rw [RuleContext.resultType] at returned ⊢
        split
        case h_1 function isFunction =>
          exact Convention.isPassed_of_result (prepared.planned function isFunction) returns
        case h_2 none =>
          rw [none] at returned
          cases returned
      exact prepared.isRead member found filled ordinary.1 ordinary.2
    exact (yields_returnValue read).bind fun lines _ named =>
      named_append.mpr ⟨named, named_epilogue⟩

end Prepared

end Lowering

end SsaAmd64
