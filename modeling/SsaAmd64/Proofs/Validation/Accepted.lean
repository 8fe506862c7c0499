/-
**What an accepted module has been checked for.**

Validation is one long computation that fails with the first fault. Its success is the success of
each check, for each instruction in each block of each function.

* `RuleContext.Accepts`: the checks of one instruction, all passed;
* `Module.accepts_of_validate`: they are passed by all instructions of an accepted module;
* `RuleContext.Accepts.pairs`: what that means for the incoming pairs of a phi.
-/

import SsaAmd64.Proofs.Outcomes
import SsaAmd64.Validation.Module

namespace SsaAmd64

theorem Fault.ifNot_eq_ok_iff {fault : Fault} {condition : Bool} :
    fault.ifNot condition = .ok () ↔ condition = true := by
  cases condition <;> simp [Fault.ifNot]

/-- **The checks of an instruction at a position of a block, all passed.** -/
structure RuleContext.Accepts (context : RuleContext) (block : ValueId) (position : Nat)
    (instruction : Instruction) : Prop where
  scope : context.checkScope instruction = .ok ()
  dominance : instruction.opcode.isPhi = false →
    context.checkDominance block position instruction = .ok ()
  rules : context.checkRules block instruction = .ok ()

namespace Module

variable {m : Module} {function block id : ValueId} {position : Nat} {instruction : Instruction}

theorem accepts_of_checkInstruction {context : RuleContext}
    (passed : context.checkInstruction block position id = .ok ())
    (found : context.subject.instruction? id = some instruction) :
    context.Accepts block position instruction := by
  unfold RuleContext.checkInstruction at passed
  rw [found] at passed
  have checks := ok_of_mapError passed
  obtain ⟨_, scope, rest⟩ := ok_of_bind checks
  by_cases phi : instruction.opcode.isPhi
  · rw [if_pos phi] at rest
    refine ⟨scope, fun other => ?_, rest⟩
    rw [phi] at other
    cases other
  · rw [if_neg phi] at rest
    obtain ⟨_, dominance, rules⟩ := ok_of_bind rest
    exact ⟨scope, fun _ => dominance, rules⟩

/-- **Each instruction of an accepted module has passed its checks.** -/
theorem accepts_of_validate (valid : m.validate = .ok ()) (member : function ∈ m.functions)
    (inside : block ∈ m.blocksOf function) (place : (m.instructionsOf block)[position]? = some id)
    (found : m.instruction? id = some instruction) :
    (RuleContext.of m function).Accepts block position instruction := by
  obtain ⟨_, _, rest⟩ := ok_of_bind valid
  obtain ⟨_, _, rest⟩ := ok_of_bind rest
  obtain ⟨_, _, rest⟩ := ok_of_bind rest
  obtain ⟨_, _, rest⟩ := ok_of_bind rest
  obtain ⟨_, _, rest⟩ := ok_of_bind rest
  obtain ⟨_, instructions, _⟩ := ok_of_bind rest
  have body := ok_of_forM instructions function member
  have one := ok_of_forM (ok_of_forM body block inside) (id, position)
    (List.mem_zipIdx_iff_getElem?.mpr place)
  exact accepts_of_checkInstruction one found

end Module

namespace RuleContext

variable {context : RuleContext} {block value : ValueId} {position : Nat}
variable {instruction : Instruction}

/-! ### Operands -/

/-- An operand that is an instruction stands in a block. -/
theorem Accepts.attached (accepts : context.Accepts block position instruction)
    (member : value ∈ instruction.values) (isInstruction : (context.subject.instruction? value).isSome) :
    ∃ source, context.subject.blockOf? value = some source := by
  obtain ⟨_, here, _⟩ := ok_of_bind (ok_of_forM accepts.scope value member)
  have stays := Fault.ifNot_eq_ok_iff.mp here
  obtain ⟨producer, found⟩ := Option.isSome_iff_exists.mp isInstruction
  rw [isRemoved, found] at stays
  obtain ⟨source, attached⟩ : ∃ source, producer.block = some source := by
    refine Option.isSome_iff_exists.mp ?_
    cases known : producer.block with
    | none => simp [known] at stays
    | some source => rfl
  refine ⟨source, ?_⟩
  rw [Module.blockOf?, found]
  exact attached

/-- In a block that can be reached the operands are available. -/
theorem Accepts.available (accepts : context.Accepts block position instruction)
    (ordinary : instruction.opcode.isPhi = false) (reachable : context.tree.isReachable block = true)
    (member : value ∈ instruction.values) : context.isAvailable block position value = true := by
  have passed := accepts.dominance ordinary
  rw [checkDominance, if_pos reachable] at passed
  exact Fault.ifNot_eq_ok_iff.mp (ok_of_forM passed value member)

/-! ### Types of operands -/

theorem of_operandType {slot : Nat} {type : Ty}
    (passed : context.operandType instruction slot = .ok type) :
    ∃ value, instruction.operand slot = some value ∧ context.subject.typeOf value = type := by
  obtain ⟨value, filled, typed⟩ := ok_of_map passed
  rw [Fault.demandOperand] at filled
  split at filled
  case h_1 found =>
    obtain rfl := Except.ok.inj filled
    exact ⟨_, found, typed⟩
  case h_2 => cases filled

theorem of_demandSame {first second : Ty} (passed : Fault.demandSame first second = .ok ()) :
    first = second :=
  of_decide_eq_true (Fault.ifNot_eq_ok_iff.mp passed)

theorem of_sameOperands {first second : Ty} {outcome : Unit}
    (one : context.operandType instruction 0 = .ok first)
    (other : context.operandType instruction 1 = .ok second)
    (same : Fault.demandSame first second = .ok outcome) :
    ∃ left right, instruction.operand 0 = some left ∧ instruction.operand 1 = some right ∧
      context.subject.typeOf left = first ∧ context.subject.typeOf right = first := by
  obtain ⟨left, filled, typed⟩ := of_operandType one
  obtain ⟨right, filled', typed'⟩ := of_operandType other
  exact ⟨left, right, filled, filled', typed, typed'.trans (of_demandSame same).symm⟩

theorem of_demandInt {type : Ty} {width : Nat} (passed : Fault.demandInt type = .ok width) :
    type = .int width := by
  cases type with
  | int held => rw [Except.ok.inj passed]
  | _ => cases passed

/-- The operands of a binary operation have one type. -/
theorem operands_of_binary {operation : BinaryOp}
    (rules : context.checkRules block instruction = .ok ())
    (kind : instruction.opcode = .binary operation) :
    ∃ left right type, instruction.operand 0 = some left ∧ instruction.operand 1 = some right ∧
      context.subject.typeOf left = type ∧ context.subject.typeOf right = type := by
  rw [checkRules, kind] at rules
  obtain ⟨type, one, rest⟩ := ok_of_bind rules
  obtain ⟨type', other, rest⟩ := ok_of_bind rest
  obtain ⟨_, same, _⟩ := ok_of_bind rest
  obtain ⟨left, right, operands⟩ := of_sameOperands one other same
  exact ⟨left, right, type, operands⟩

/-- The operands of a comparison are integers of one type. -/
theorem operands_of_compare {predicate : Predicate}
    (rules : context.checkRules block instruction = .ok ())
    (kind : instruction.opcode = .compare predicate) :
    ∃ left right width, instruction.operand 0 = some left ∧ instruction.operand 1 = some right ∧
      context.subject.typeOf left = .int width ∧ context.subject.typeOf right = .int width := by
  rw [checkRules, kind] at rules
  obtain ⟨type, one, rest⟩ := ok_of_bind rules
  obtain ⟨type', other, rest⟩ := ok_of_bind rest
  obtain ⟨_, same, rest⟩ := ok_of_bind rest
  obtain ⟨width, integer, _⟩ := ok_of_bind rest
  obtain rfl := of_demandInt integer
  obtain ⟨left, right, operands⟩ := of_sameOperands one other same
  exact ⟨left, right, width, operands⟩

/-- Integers are extended to wider ones, and truncated to narrower ones. -/
theorem Accepts.convert {conversion : Conversion} {target : Ty}
    (accepts : context.Accepts block position instruction)
    (kind : instruction.opcode = .convert conversion target)
    (integral : conversion = .sext ∨ conversion = .zext ∨ conversion = .trunc) :
    ∃ value source width, instruction.operand 0 = some value ∧
      context.subject.typeOf value = .int source ∧ target = .int width ∧
      (conversion ≠ .trunc → source < width) := by
  have rules := accepts.rules
  rw [checkRules, kind] at rules
  obtain ⟨type, one, conversions⟩ := ok_of_bind rules
  obtain ⟨value, filled, rfl⟩ := of_operandType one
  rcases integral with rfl | rfl | rfl <;>
  · obtain ⟨source, integer, rest⟩ := ok_of_bind conversions
    obtain ⟨width, integer', rest⟩ := ok_of_bind rest
    refine ⟨value, source, width, filled, of_demandInt integer, of_demandInt integer', ?_⟩
    intro widens
    first
      | exact absurd rfl widens
      | exact of_decide_eq_true (Fault.ifNot_eq_ok_iff.mp rest)

/-- The condition of a branch is a bit. -/
theorem Accepts.condbr (accepts : context.Accepts block position instruction)
    (kind : instruction.opcode = .condbr) :
    ∃ condition, instruction.operand 0 = some condition ∧
      context.subject.typeOf condition = .int 1 := by
  have rules := accepts.rules
  rw [checkRules, kind] at rules
  obtain ⟨type, first, rest⟩ := ok_of_bind rules
  obtain ⟨_, bit, _⟩ := ok_of_bind rest
  obtain ⟨condition, filled, typed⟩ := of_operandType first
  exact ⟨condition, filled, typed.trans (of_decide_eq_true (Fault.ifNot_eq_ok_iff.mp bit))⟩

theorem of_demandPointer {type element : Ty} (passed : Fault.demandPointer type = .ok element) :
    type = .pointer element := by
  cases type with
  | pointer held => rw [Except.ok.inj passed]
  | _ => cases passed

theorem of_demandLabel {type : Ty} {outcome : Unit}
    (passed : Fault.demandLabel type = .ok outcome) : type = .label :=
  of_decide_eq_true (Fault.ifNot_eq_ok_iff.mp passed)

theorem of_demandFunction {type : Ty} {signature : Signature}
    (passed : Fault.demandFunction type = .ok signature) : type = signature.type := by
  cases type with
  | function result parameters variadic =>
    obtain rfl := Except.ok.inj passed
    rfl
  | _ => cases passed

/-- What is loaded from is a pointer to what can be loaded. -/
theorem Accepts.load (accepts : context.Accepts block position instruction)
    (kind : instruction.opcode = .load) :
    ∃ pointer element, instruction.operand 0 = some pointer ∧
      context.subject.typeOf pointer = .pointer element ∧ element.isFirstClass = true := by
  have rules := accepts.rules
  rw [checkRules, kind] at rules
  obtain ⟨type, first, rest⟩ := ok_of_bind rules
  obtain ⟨element, points, rest⟩ := ok_of_bind rest
  obtain ⟨pointer, filled, typed⟩ := of_operandType first
  exact ⟨pointer, element, filled, typed.trans (of_demandPointer points),
    Fault.ifNot_eq_ok_iff.mp rest⟩

/-- What is stored has the type that its target points to. -/
theorem Accepts.store (accepts : context.Accepts block position instruction)
    (kind : instruction.opcode = .store) :
    ∃ pointer value, instruction.operand 0 = some pointer ∧ instruction.operand 1 = some value ∧
      context.subject.typeOf pointer = .pointer (context.subject.typeOf value) ∧
      (context.subject.typeOf value).isFirstClass = true := by
  have rules := accepts.rules
  rw [checkRules, kind] at rules
  obtain ⟨type, first, rest⟩ := ok_of_bind rules
  obtain ⟨element, points, rest⟩ := ok_of_bind rest
  obtain ⟨type', second, rest⟩ := ok_of_bind rest
  obtain ⟨_, same, sound⟩ := ok_of_bind rest
  obtain ⟨pointer, filled, typed⟩ := of_operandType first
  obtain ⟨value, filled', rfl⟩ := of_operandType second
  obtain rfl := of_demandSame same
  exact ⟨pointer, value, filled, filled', typed.trans (of_demandPointer points),
    Fault.ifNot_eq_ok_iff.mp sound⟩

/-- The operands of a binary operation are integers or floats of one type. -/
theorem Accepts.scalars {operation : BinaryOp}
    (accepts : context.Accepts block position instruction)
    (kind : instruction.opcode = .binary operation) :
    ∃ left right, instruction.operand 0 = some left ∧ instruction.operand 1 = some right ∧
      context.subject.typeOf right = context.subject.typeOf left ∧
      context.subject.typeOf left ≠ .void ∧ context.subject.typeOf left ≠ .label := by
  have rules := accepts.rules
  rw [checkRules, kind] at rules
  obtain ⟨type, one, rest⟩ := ok_of_bind rules
  obtain ⟨type', other, rest⟩ := ok_of_bind rest
  obtain ⟨_, same, scalar⟩ := ok_of_bind rest
  obtain ⟨left, right, filled, filled', rfl, same⟩ := of_sameOperands one other same
  refine ⟨left, right, filled, filled', same, fun none => ?_, fun label => ?_⟩
  · rw [none] at scalar
    split at scalar <;> cases scalar
  · rw [label] at scalar
    split at scalar <;> cases scalar

/-- What is converted is an integer, a float or a pointer, and so is the result. -/
theorem Accepts.converted {conversion : Conversion} {target : Ty}
    (accepts : context.Accepts block position instruction)
    (kind : instruction.opcode = .convert conversion target) :
    ∃ value, instruction.operand 0 = some value ∧ context.subject.typeOf value ≠ .void ∧
      context.subject.typeOf value ≠ .label ∧ target ≠ .void := by
  have rules := accepts.rules
  rw [checkRules, kind] at rules
  obtain ⟨type, one, conversions⟩ := ok_of_bind rules
  obtain ⟨value, filled, rfl⟩ := of_operandType one
  refine ⟨value, filled, ?_⟩
  cases conversion <;>
  · obtain ⟨_, source, rest⟩ := ok_of_bind conversions
    obtain ⟨_, result, _⟩ := ok_of_bind rest
    refine ⟨fun none => ?_, fun label => ?_, fun none => ?_⟩
    · rw [none] at source
      cases source
    · rw [label] at source
      cases source
    · rw [none] at result
      cases result

theorem operandType_eq_ok {slot : Nat} (filled : instruction.operand slot = some value) :
    context.operandType instruction slot = .ok (context.subject.typeOf value) := by
  rw [operandType, Fault.demandOperand, filled]
  rfl

/-- What the rule of address computations asks for. -/
theorem checkGep_eq_ok_iff (kind : instruction.opcode = .gep) :
    context.checkGep instruction = .ok () ↔ ∃ base element, instruction.operand 0 = some base ∧
      context.subject.typeOf base = .pointer element ∧ instruction.operands.tail ≠ [] ∧
      context.checkIndices 0 instruction.operands.tail (.pointer element) = .ok () := by
  have trailing : instruction.trailing = instruction.operands.tail := by
    rw [Instruction.trailing, kind]
  constructor
  · intro checked
    obtain ⟨type, first, checked⟩ := ok_of_bind checked
    obtain ⟨element, points, checked⟩ := ok_of_bind checked
    obtain ⟨_, indexed, checked⟩ := ok_of_bind checked
    obtain ⟨base, filled, typed⟩ := of_operandType first
    obtain rfl := of_demandPointer points
    rw [trailing] at indexed checked
    refine ⟨base, element, filled, typed, fun none => ?_, checked⟩
    rw [none] at indexed
    cases indexed
  · rintro ⟨base, element, filled, typed, indexed, checked⟩
    have some' : (!instruction.operands.tail.isEmpty) = true := by simpa using indexed
    rw [checkGep, operandType_eq_ok filled, typed, trailing, some']
    exact checked

/-- The base of an address computation is a pointer, and its indices lead somewhere. -/
theorem Accepts.gep (accepts : context.Accepts block position instruction)
    (kind : instruction.opcode = .gep) :
    ∃ base element, instruction.operand 0 = some base ∧
      context.subject.typeOf base = .pointer element ∧ instruction.operands.tail ≠ [] ∧
      context.checkIndices 0 instruction.operands.tail (.pointer element) = .ok () :=
  (checkGep_eq_ok_iff kind).mp (by rw [← accepts.rules, checkRules, kind])

/-- Arguments that have been checked one after the other: all are there, and those of parameters
have the types of these. -/
theorem of_checkArguments {slots : List Slot} {parameters : List Ty} {index : Nat}
    (passed : context.checkArguments index slots parameters = .ok ()) :
    ∃ arguments : List ValueId, slots = arguments.map some ∧
      (∀ argument ∈ arguments, (context.subject.typeOf argument).isFirstClass = true) ∧
      (parameters.length ≤ arguments.length →
        parameters <+: arguments.map context.subject.typeOf) := by
  induction slots generalizing parameters index with
  | nil =>
    refine ⟨[], rfl, nofun, fun short => ?_⟩
    rw [List.eq_nil_of_length_eq_zero (Nat.le_zero.mp short)]
    exact List.prefix_rfl
  | cons slot slots ih =>
    cases slot with
    | none => cases passed
    | some argument =>
      obtain ⟨_, first, rest⟩ := ok_of_bind passed
      have here := Fault.ifNot_eq_ok_iff.mp first
      cases parameters with
      | nil =>
        obtain ⟨arguments, rfl, all, _⟩ := ih rest
        exact ⟨argument :: arguments, rfl, List.forall_mem_cons.mpr ⟨here, all⟩,
          fun _ => List.nil_prefix⟩
      | cons parameter parameters =>
        obtain ⟨_, same, rest⟩ := ok_of_bind rest
        obtain ⟨arguments, rfl, all, ordered⟩ := ih rest
        refine ⟨argument :: arguments, rfl, List.forall_mem_cons.mpr ⟨here, all⟩, fun short => ?_⟩
        rw [List.map_cons, of_demandSame same]
        exact List.prefix_cons_inj _ |>.mpr (ordered (Nat.le_of_succ_le_succ short))

/-- What is called has the type of a function, and the arguments begin with one of the type of each
parameter. -/
theorem Accepts.call (accepts : context.Accepts block position instruction)
    (kind : instruction.opcode = .call) :
    ∃ (callee : ValueId) (signature : Signature) (arguments : List ValueId),
      instruction.operand 0 = some callee ∧
      context.subject.typeOf callee = signature.type ∧
      instruction.operands.tail = arguments.map some ∧
      (∀ argument ∈ arguments, (context.subject.typeOf argument).isFirstClass = true) ∧
      signature.parameters <+: arguments.map context.subject.typeOf := by
  have rules := accepts.rules
  rw [checkRules, kind] at rules
  have trailing : instruction.trailing = instruction.operands.tail := by
    rw [Instruction.trailing, kind]
  obtain ⟨callee, filled, rest⟩ := ok_of_bind rules
  obtain ⟨signature, typed, rest⟩ := ok_of_bind rest
  obtain ⟨_, _, rest⟩ := ok_of_bind rest
  obtain ⟨_, enough, rest⟩ := ok_of_bind rest
  obtain ⟨arguments, same, all, ordered⟩ := of_checkArguments rest
  have enough := of_decide_eq_true (Fault.ifNot_eq_ok_iff.mp enough)
  rw [same, List.length_map] at enough
  refine ⟨callee, signature, arguments, ?_, of_demandFunction typed, trailing ▸ same, all,
    ordered enough⟩
  rw [Fault.demandOperand] at filled
  split at filled
  case h_1 found => rw [found, Except.ok.inj filled]
  case h_2 => cases filled

/-- The target of an unconditional branch has the type of a block. -/
theorem Accepts.br (accepts : context.Accepts block position instruction)
    (kind : instruction.opcode = .br) :
    ∃ target, instruction.operand 0 = some target ∧ context.subject.typeOf target = .label := by
  have rules := accepts.rules
  rw [checkRules, kind] at rules
  obtain ⟨type, first, passed⟩ := ok_of_bind rules
  obtain ⟨target, filled, typed⟩ := of_operandType first
  exact ⟨target, filled, typed.trans (of_demandLabel passed)⟩

/-- The targets of a conditional branch have the type of a block. -/
theorem Accepts.condbrTargets (accepts : context.Accepts block position instruction)
    (kind : instruction.opcode = .condbr) :
    ∃ ifTrue ifFalse, instruction.operand 1 = some ifTrue ∧ instruction.operand 2 = some ifFalse ∧
      context.subject.typeOf ifTrue = .label ∧ context.subject.typeOf ifFalse = .label := by
  have rules := accepts.rules
  rw [checkRules, kind] at rules
  obtain ⟨_, _, rest⟩ := ok_of_bind rules
  obtain ⟨_, _, rest⟩ := ok_of_bind rest
  obtain ⟨type, first, rest⟩ := ok_of_bind rest
  obtain ⟨_, passed, rest⟩ := ok_of_bind rest
  obtain ⟨type', second, passed'⟩ := ok_of_bind rest
  obtain ⟨ifTrue, filled, typed⟩ := of_operandType first
  obtain ⟨ifFalse, filled', typed'⟩ := of_operandType second
  exact ⟨ifTrue, ifFalse, filled, filled', typed.trans (of_demandLabel passed),
    typed'.trans (of_demandLabel passed')⟩

/-- Nothing is returned from a function without result. -/
theorem Accepts.returned {value : ValueId} (accepts : context.Accepts block position instruction)
    (kind : instruction.opcode = .ret) (filled : instruction.operand 0 = some value) :
    context.resultType.isVoid = false := by
  have rules := accepts.rules
  rw [checkRules, kind] at rules
  rw [checkRet, filled] at rules
  dsimp only at rules
  split at rules
  case isTrue => cases rules
  case isFalse other => exact Bool.eq_false_iff.mpr other

/-- A phi can be computed with. -/
theorem Accepts.phi {type : Ty} (accepts : context.Accepts block position instruction)
    (kind : instruction.opcode = .phi type) : type.isFirstClass = true := by
  have rules := accepts.rules
  rw [checkRules, kind] at rules
  obtain ⟨_, passed, _⟩ := ok_of_bind rules
  exact Fault.ifNot_eq_ok_iff.mp passed

/-- What is returned has the type of the result. -/
theorem Accepts.ret {value : ValueId} (accepts : context.Accepts block position instruction)
    (kind : instruction.opcode = .ret) (filled : instruction.operand 0 = some value) :
    context.subject.typeOf value = context.resultType := by
  have rules := accepts.rules
  rw [checkRules, kind] at rules
  rw [checkRet, filled] at rules
  dsimp only at rules
  split at rules
  case isTrue => cases rules
  case isFalse => exact of_decide_eq_true (Fault.ifNot_eq_ok_iff.mp rules)

/-! ### Incoming pairs -/

/-- An incoming pair that has passed its check. -/
structure AcceptsPair (context : RuleContext) (type : Ty) (predecessors : List ValueId)
    (value block : ValueId) : Prop where
  isBlock : (context.subject.block? block).isSome
  predecessor : block ∈ predecessors
  typed : type = context.subject.typeOf value
  available : context.isAvailableAtEnd value block = true

variable {type : Ty} {predecessors seen : List ValueId} {index : Nat}

theorem acceptsPair_of_checkPair {pair : Slot × Slot} {origin : ValueId}
    (passed : context.checkPair type predecessors seen index pair = .ok origin) :
    origin ∉ seen ∧ ∃ value, pair = (some value, some origin) ∧
      context.AcceptsPair type predecessors value origin := by
  obtain ⟨_ | value, _ | block⟩ := pair
  case some.some =>
    obtain ⟨_, _, rest⟩ := ok_of_bind passed
    obtain ⟨_, isBlock, rest⟩ := ok_of_bind rest
    obtain ⟨_, predecessor, rest⟩ := ok_of_bind rest
    obtain ⟨_, fresh, rest⟩ := ok_of_bind rest
    obtain ⟨_, typed, rest⟩ := ok_of_bind rest
    obtain ⟨_, available, result⟩ := ok_of_bind rest
    obtain rfl : block = origin := Except.ok.inj result
    refine ⟨?_, value, rfl, ?_, ?_, ?_, ?_⟩
    · simpa using Fault.ifNot_eq_ok_iff.mp fresh
    · exact Fault.ifNot_eq_ok_iff.mp isBlock
    · simpa using Fault.ifNot_eq_ok_iff.mp predecessor
    · exact of_decide_eq_true (Fault.ifNot_eq_ok_iff.mp typed)
    · exact Fault.ifNot_eq_ok_iff.mp available
  all_goals cases passed

/-- Pairs that have been checked one after the other: all passed, and no block occurs twice. -/
theorem of_checkPairs {pairs : List (Slot × Slot)} {origins : List ValueId}
    (passed : context.checkPairs type predecessors seen index pairs = .ok origins)
    (distinct : seen.Nodup) :
    ∃ values : List (ValueId × ValueId),
      pairs = values.map (fun pair => (some pair.1, some pair.2)) ∧
      origins = seen ++ values.map Prod.snd ∧ origins.Nodup ∧
      ∀ pair ∈ values, context.AcceptsPair type predecessors pair.1 pair.2 := by
  induction pairs generalizing seen index with
  | nil =>
    obtain rfl : seen = origins := Except.ok.inj passed
    exact ⟨[], rfl, by simp, distinct, by simp⟩
  | cons pair pairs ih =>
    obtain ⟨origin, here, rest⟩ := ok_of_bind passed
    obtain ⟨fresh, value, rfl, accepted⟩ := acceptsPair_of_checkPair here
    have distinct' : (seen ++ [origin]).Nodup := by
      refine List.nodup_append.mpr ⟨distinct, by simp, ?_⟩
      intro first member second last same
      rw [List.mem_singleton.mp last] at same
      exact fresh (same ▸ member)
    obtain ⟨values, rfl, rfl, nodup, all⟩ := ih rest distinct'
    refine ⟨(value, origin) :: values, rfl, by simp, nodup, ?_⟩
    exact List.forall_mem_cons.mpr ⟨accepted, all⟩

/-- A phi that has passed its rule: one pair for each predecessor of its block, each of them
accepted. -/
theorem pairs_of_checkPhi {pairs : List (Slot × Slot)}
    (passed : context.checkPhi block type pairs = .ok ()) :
    ∃ values : List (ValueId × ValueId),
      pairs = values.map (fun pair => (some pair.1, some pair.2)) ∧
      (values.map Prod.snd).Nodup ∧
      (∀ origin ∈ context.cfg.predecessors block, origin ∈ values.map Prod.snd) ∧
      ∀ pair ∈ values,
        context.AcceptsPair type (context.cfg.predecessors block) pair.1 pair.2 := by
  obtain ⟨origins, checked, rest⟩ := ok_of_bind passed
  obtain ⟨values, shape, rfl, nodup, all⟩ := of_checkPairs checked List.nodup_nil
  refine ⟨values, shape, nodup, fun origin member => ?_, all⟩
  split at rest
  case h_1 => cases rest
  case h_2 none =>
    have covered := List.find?_eq_none.mp none origin member
    simpa using covered

/-- **The incoming pairs of an accepted phi.** -/
theorem Accepts.pairs (accepts : context.Accepts block position instruction)
    (phi : instruction.opcode = .phi type) :
    ∃ values : List (ValueId × ValueId),
      instruction.incoming = values.map (fun pair => (some pair.1, some pair.2)) ∧
      (values.map Prod.snd).Nodup ∧
      (∀ origin ∈ context.cfg.predecessors block, origin ∈ values.map Prod.snd) ∧
      ∀ pair ∈ values,
        context.AcceptsPair type (context.cfg.predecessors block) pair.1 pair.2 := by
  have rules := accepts.rules
  rw [checkRules, phi] at rules
  obtain ⟨_, _, checked⟩ := ok_of_bind rules
  exact pairs_of_checkPhi checked

end RuleContext

end SsaAmd64
