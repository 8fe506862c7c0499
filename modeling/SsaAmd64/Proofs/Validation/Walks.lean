/-
**Where the indices of an address computation lead.**

Two functions follow the indices of an address computation through the type of its base: the rule
of validation, which reports the first index that leads nowhere, and the one that gives the address
its type, and `void` if the indices lead nowhere. Both follow them to the same type.

* `Module.StepsTo`, `Module.LeadsTo`: where one index leads, and where all of them do;
* `Module.stepType_eq_some_iff`, `Module.walkType_eq_some_iff`: what the type of an address follows;
* `RuleContext.checkStep_eq_ok_iff`, `RuleContext.checkIndices_eq_ok_iff`: what the rule accepts;
* `Module.checkGep_exact`: the rule accepts what has a type.
-/

import SsaAmd64.Proofs.Ir.Operations
import SsaAmd64.Proofs.Validation.Accepted

namespace SsaAmd64

namespace Module

/-- **Where an index leads from a type**, at a position of the list of indices. The first index leads
through a pointer, any index to an element of an array, and an integer literal to the field of a
struct that it names. -/
inductive StepsTo (m : Module) : (position : Nat) → Slot → Ty → Ty → Prop
  | pointer (index : Slot) (element : Ty) : StepsTo m 0 index (.pointer element) element
  | array (position : Nat) (index : Slot) (length : Nat) (element : Ty) :
    StepsTo m position index (.array length element) element
  | field (position : Nat) {index : ValueId} {width value : Nat}
      {inRange : value < patternCount (min width 128)} (packed : Bool) {fields : List Ty}
      {field : Ty} :
    m.literal? index = some (.int width value inRange) → fields[value]? = some field →
    StepsTo m position (some index) (.struct packed fields) field

/-- **Where indices lead from a type**, one after the other, from a position of the list on. -/
inductive LeadsTo (m : Module) : (position : Nat) → List Slot → Ty → Ty → Prop
  | here (position : Nat) (type : Ty) : LeadsTo m position [] type type
  | step {position : Nat} {index : Slot} {indices : List Slot} {type next target : Ty} :
    m.StepsTo position index type next → LeadsTo m (position + 1) indices next target →
    LeadsTo m position (index :: indices) type target

variable {m : Module} {position : Nat} {index : Slot} {indices before after : List Slot}
variable {type next middle target : Ty}

/-! ### The type of an address -/

theorem stepType_eq_some_iff :
    m.stepType position index type = some next ↔ m.StepsTo position index type next := by
  constructor
  · intro found
    cases type with
    | pointer element =>
      rw [stepType] at found
      split at found
      case isTrue first =>
        obtain rfl := Option.some.inj found
        exact first ▸ .pointer index element
      case isFalse => cases found
    | array length element =>
      obtain rfl := Option.some.inj found
      exact .array position index length element
    | struct packed fields =>
      obtain ⟨literal, isLiteral, found⟩ := Option.bind_eq_some_iff.mp found
      obtain ⟨value, natural, named⟩ := Option.bind_eq_some_iff.mp found
      obtain ⟨id, rfl, isLiteral⟩ := Option.bind_eq_some_iff.mp isLiteral
      cases literal with
      | int width number inRange =>
        obtain rfl := Option.some.inj natural
        exact .field position packed isLiteral named
      | _ => cases natural
    | _ => cases found
  · intro leads
    cases leads with
    | pointer => rw [stepType, if_pos rfl]
    | array => rfl
    | field _ _ isLiteral named =>
      rw [stepType, Option.bind_some, isLiteral]
      exact named

theorem walkType_eq_some_iff :
    m.walkType position indices type = some target ↔ m.LeadsTo position indices type target := by
  constructor
  · intro found
    induction indices generalizing position type with
    | nil =>
      obtain rfl := Option.some.inj found
      exact .here position type
    | cons index indices ih =>
      obtain ⟨next, one, others⟩ := Option.bind_eq_some_iff.mp found
      exact .step (stepType_eq_some_iff.mp one) (ih others)
  · intro leads
    induction leads with
    | here => rfl
    | step one _ ih => exact Option.bind_eq_some_iff.mpr ⟨_, stepType_eq_some_iff.mpr one, ih⟩

/-- Indices lead to one type at most. -/
theorem LeadsTo.unique {other : Ty} (one : m.LeadsTo position indices type target)
    (two : m.LeadsTo position indices type other) : target = other :=
  Option.some.inj ((walkType_eq_some_iff.mpr one).symm.trans (walkType_eq_some_iff.mpr two))

/-- Indices that lead somewhere do so one part after the other. -/
theorem leadsTo_append_iff : m.LeadsTo position (before ++ after) type target ↔
    ∃ middle, m.LeadsTo position before type middle ∧
      m.LeadsTo (position + before.length) after middle target := by
  induction before generalizing position type with
  | nil =>
    refine ⟨fun leads => ⟨type, .here position type, leads⟩, ?_⟩
    rintro ⟨_, ⟨⟩, leads⟩
    exact leads
  | cons index before ih =>
    rw [List.length_cons, Nat.add_comm before.length, ← Nat.add_assoc]
    constructor
    · rintro (_ | ⟨one, others⟩)
      obtain ⟨middle, first, second⟩ := ih.mp others
      exact ⟨middle, .step one first, second⟩
    · rintro ⟨middle, _ | ⟨one, first⟩, second⟩
      exact .step one (ih.mpr ⟨middle, first, second⟩)

theorem addressType_of_leadsTo (leads : m.LeadsTo 0 indices type target) :
    m.addressType (some type) indices = .pointer target := by
  rw [addressType, Option.bind_some, walkType_eq_some_iff.mpr leads]

/-- The indices of an address with a type lead somewhere. -/
theorem leadsTo_of_addressType (named : m.addressType (some type) indices ≠ .void) :
    ∃ target, m.LeadsTo 0 indices type target := by
  rw [addressType, Option.bind_some] at named
  cases found : m.walkType 0 indices type with
  | some target => exact ⟨target, walkType_eq_some_iff.mp found⟩
  | none =>
    rw [found] at named
    exact absurd rfl named

end Module

/-! ### The rule of address computations -/

namespace RuleContext

variable {context : RuleContext} {position : Nat} {index base : ValueId} {slots : List Slot}
variable {type next element : Ty} {held : Instruction}

/-- An index into a struct is a literal that names a field. -/
theorem of_checkStep_struct {packed : Bool} {fields : List Ty}
    (step : context.checkStep position index (.struct packed fields) = .ok next) :
    ∃ held number, context.subject.literal? index = some held ∧
      held.natValue? = some number ∧ fields[number]? = some next := by
  rw [checkStep] at step
  split at step
  case h_1 => cases step
  case h_2 number natural =>
    split at step
    case h_1 field named =>
      obtain ⟨held, isLiteral, natural⟩ := Option.bind_eq_some_iff.mp natural
      exact ⟨held, number, isLiteral, natural, Except.ok.inj step ▸ named⟩
    case h_2 => cases step

theorem checkStep_eq_ok_iff : context.checkStep position index type = .ok next ↔
    context.subject.StepsTo position (some index) type next := by
  constructor
  · intro checked
    cases type with
    | pointer inner =>
      rw [checkStep] at checked
      split at checked
      case isTrue first =>
        obtain rfl := Except.ok.inj checked
        exact first ▸ .pointer (some index) inner
      case isFalse => cases checked
    | array length inner =>
      obtain rfl := Except.ok.inj checked
      exact .array position (some index) length inner
    | struct packed fields =>
      obtain ⟨literal, number, isLiteral, natural, named⟩ := of_checkStep_struct checked
      cases literal with
      | int width value inRange =>
        obtain rfl := Option.some.inj natural
        exact .field position packed isLiteral named
      | _ => cases natural
    | _ => cases checked
  · intro leads
    cases leads with
    | pointer => rw [checkStep, if_pos rfl]
    | array => rfl
    | @field _ _ width value inRange _ _ _ isLiteral named =>
      have natural : (context.subject.literal? index).bind Literal.natValue? = some value := by
        rw [isLiteral]
        rfl
      rw [checkStep, natural]
      dsimp only
      rw [named]

/-- **The rule accepts indices that are integers and lead somewhere.** -/
theorem checkIndices_eq_ok_iff : context.checkIndices position slots type = .ok () ↔
    (∀ slot ∈ slots, ∃ index width, slot = some index ∧
      context.subject.typeOf index = .int width) ∧
    ∃ target, context.subject.LeadsTo position slots type target := by
  induction slots generalizing position type with
  | nil => exact ⟨fun _ => ⟨List.forall_mem_nil _, type, .here position type⟩, fun _ => rfl⟩
  | cons slot slots ih =>
    constructor
    · intro checked
      cases slot with
      | none => cases checked
      | some index =>
        obtain ⟨width, integer, checked⟩ := ok_of_bind checked
        obtain ⟨next, one, checked⟩ := ok_of_bind checked
        obtain ⟨integers, target, others⟩ := ih.mp checked
        exact ⟨List.forall_mem_cons.mpr ⟨⟨index, width, rfl, of_demandInt integer⟩, integers⟩,
          target, .step (checkStep_eq_ok_iff.mp one) others⟩
    · rintro ⟨integers, target, leads⟩
      obtain ⟨⟨index, width, rfl, integer⟩, others⟩ := List.forall_mem_cons.mp integers
      cases leads with
      | step one leads =>
        rw [checkIndices, integer, checkStep_eq_ok_iff.mpr one]
        exact ih.mpr ⟨others, target, leads⟩

@[simp] theorem subject_of (m : Module) (function : ValueId) : (of m function).subject = m := rfl

end RuleContext

namespace Module

variable {m : Module} {id : ValueId} {held : Instruction}

theorem gepType_eq {base : ValueId} (found : m.instruction? id = some held)
    (filled : held.operand 0 = some base) :
    m.gepType id = m.addressType (some (m.typeOf base)) held.operands.tail := by
  have operands : m.operandsOf id = held.operands := by
    rw [operandsOf, found]
    rfl
  have first : m.operand? id 0 = some base := by rwa [operand?, operands]
  rw [gepType, first, operands]
  rfl

/-- **The rule of address computations accepts exactly those that have a type**, among those with a
base that is a pointer and with one index at least, where all indices are integers. Such an address
points to what its indices lead to, and they lead to nothing else. -/
theorem checkGep_exact (function : ValueId) (found : m.instruction? id = some held)
    (kind : held.opcode = .gep) :
    ((RuleContext.of m function).checkGep held = .ok () ↔
      (∃ base element, held.operand 0 = some base ∧ m.typeOf base = .pointer element) ∧
      held.operands.tail ≠ [] ∧
      (∀ slot ∈ held.operands.tail, ∃ index width, slot = some index ∧
        m.typeOf index = .int width) ∧
      m.gepType id ≠ .void) ∧
    ((RuleContext.of m function).checkGep held = .ok () →
      ∃ base target, held.operand 0 = some base ∧ m.gepType id = .pointer target ∧
        ∀ type, m.LeadsTo 0 held.operands.tail (m.typeOf base) type ↔ type = target) := by
  have asks := @RuleContext.checkGep_eq_ok_iff (RuleContext.of m function) held kind
  simp only [RuleContext.checkIndices_eq_ok_iff, RuleContext.subject_of] at asks
  constructor
  · rw [asks]
    constructor
    · rintro ⟨base, element, filled, typed, indexed, integers, target, leads⟩
      refine ⟨⟨base, element, filled, typed⟩, indexed, integers, ?_⟩
      rw [gepType_eq found filled, typed, addressType_of_leadsTo leads]
      exact Ty.noConfusion
    · rintro ⟨⟨base, element, filled, typed⟩, indexed, integers, named⟩
      rw [gepType_eq found filled, typed] at named
      exact ⟨base, element, filled, typed, indexed, integers, leadsTo_of_addressType named⟩
  · intro accepted
    obtain ⟨base, element, filled, typed, _, _, target, leads⟩ := asks.mp accepted
    refine ⟨base, target, filled, ?_, fun type => ?_⟩
    · rw [gepType_eq found filled, typed]
      exact addressType_of_leadsTo leads
    · rw [typed]
      exact ⟨fun other => other.unique leads, fun same => same ▸ leads⟩

end Module

/-- An address inside a row of cells of three rows: a pointer, a literal with its top bit set, the
field of a struct, and a parameter. -/
def gridSteps : List Operation :=
  [.addFunction ⟨[.pointer (.array 3 (.struct false [.int 8, .array 4 (.int 32)])), .int 16], .void,
      false⟩ "f",
    .addBlock ⟨0⟩ .finish "entry", .addLiteral (.ofNat 8 255), .addLiteral (.ofNat 8 1),
    .insert ⟨some (.finish ⟨3⟩)⟩ (.gep ⟨1⟩ [⟨2⟩, ⟨4⟩, ⟨5⟩, ⟨2⟩]) "cell",
    .insert ⟨some (.finish ⟨3⟩)⟩ (.ret none) ""]

namespace Module

def grid : Module := builtBy "grid" gridSteps

/-- The address computation of the grid. -/
def gridGep : Instruction :=
  ⟨some ⟨3⟩, .gep, [some ⟨1⟩, some ⟨2⟩, some ⟨4⟩, some ⟨5⟩, some ⟨2⟩]⟩

theorem instruction?_grid : grid.instruction? ⟨6⟩ = some gridGep := rfl

/-- The address in the grid is accepted, and it is that of a cell. -/
theorem checkGep_exact_grid : (RuleContext.of grid ⟨0⟩).checkGep gridGep = .ok () ∧
    ∀ type, grid.LeadsTo 0 [some ⟨2⟩, some ⟨4⟩, some ⟨5⟩, some ⟨2⟩] (grid.typeOf ⟨1⟩) type ↔
      type = .int 32 := by
  obtain ⟨exact, leads⟩ := checkGep_exact ⟨0⟩ instruction?_grid rfl
  have integers : ∀ slot ∈ gridGep.operands.tail, ∃ index width, slot = some index ∧
      grid.typeOf index = .int width := by
    simp only [gridGep, List.tail_cons, List.mem_cons, List.not_mem_nil, or_false]
    rintro slot (rfl | rfl | rfl | rfl)
    · exact ⟨⟨2⟩, 16, rfl, by decide +kernel⟩
    · exact ⟨⟨4⟩, 8, rfl, by decide +kernel⟩
    · exact ⟨⟨5⟩, 8, rfl, by decide +kernel⟩
    · exact ⟨⟨2⟩, 16, rfl, by decide +kernel⟩
  have named : grid.gepType ⟨6⟩ = .pointer (.int 32) := by decide +kernel
  have accepted := exact.mpr ⟨⟨⟨1⟩, .array 3 (.struct false [.int 8, .array 4 (.int 32)]), rfl,
    by decide +kernel⟩, by simp [gridGep], integers, by rw [named]; exact Ty.noConfusion⟩
  obtain ⟨_, target, ⟨⟩, typed, exactly⟩ := leads accepted
  rw [named] at typed
  cases typed
  exact ⟨accepted, exactly⟩

end Module

end SsaAmd64
