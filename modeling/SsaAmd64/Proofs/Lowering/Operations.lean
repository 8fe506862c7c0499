/-
**Operations.**

The code of an operation, of a comparison and of a conversion computes what the interpreter does,
into the home slot of the instruction.

* `Lowering.Assigns`: lines compute a value into its home slot;
* `Lowering.assigns_binary`, `Lowering.assigns_compare`, `Lowering.assigns_convert`: the code of
  instructions does.
-/

import SsaAmd64.Proofs.Lowering.Computation
import SsaAmd64.Proofs.Lowering.Values

namespace SsaAmd64

/-! ### What the interpreter computes -/

namespace Module

variable {m : Module} {env : Env} {id : ValueId} {number bits : Nat}

theorem widthOf_int {value : ValueId} (typed : m.typeOf value = .int bits) :
    m.widthOf value = bits := by
  rw [widthOf, typed]
  rfl

theorem of_binaryIn {operation : BinaryOp} (computed : m.binaryIn env id operation = some number) :
    ∃ left right one other, m.operand? id 0 = some left ∧ m.operand? id 1 = some right ∧
      m.valueIn env left = some one ∧ m.valueIn env right = some other ∧
      ∀ bits, m.typeOf left = .int bits → ∃ result : BitVec bits,
        operation.evaluate (BitVec.ofNat bits one) (BitVec.ofNat bits other) = some result ∧
          result.toNat = number := by
  obtain ⟨left, holdsLeft, computed⟩ := Option.bind_eq_some_iff.mp computed
  obtain ⟨right, holdsRight, computed⟩ := Option.bind_eq_some_iff.mp computed
  obtain ⟨one, valueLeft, computed⟩ := Option.bind_eq_some_iff.mp computed
  obtain ⟨other, valueRight, computed⟩ := Option.bind_eq_some_iff.mp computed
  obtain ⟨result, evaluated, computed⟩ := Option.bind_eq_some_iff.mp computed
  refine ⟨left, right, one, other, holdsLeft, holdsRight, valueLeft, valueRight, ?_⟩
  intro bits typed
  obtain rfl := widthOf_int typed
  exact ⟨result, evaluated, Option.some.inj computed⟩

theorem of_compareIn {predicate : Predicate}
    (computed : m.compareIn env id predicate = some number) :
    ∃ left right one other, m.operand? id 0 = some left ∧ m.operand? id 1 = some right ∧
      m.valueIn env left = some one ∧ m.valueIn env right = some other ∧
      ∀ bits, m.typeOf left = .int bits →
        (predicate.holds (BitVec.ofNat bits one) (BitVec.ofNat bits other)).toNat = number := by
  obtain ⟨left, holdsLeft, computed⟩ := Option.bind_eq_some_iff.mp computed
  obtain ⟨right, holdsRight, computed⟩ := Option.bind_eq_some_iff.mp computed
  obtain ⟨one, valueLeft, computed⟩ := Option.bind_eq_some_iff.mp computed
  obtain ⟨other, valueRight, computed⟩ := Option.bind_eq_some_iff.mp computed
  refine ⟨left, right, one, other, holdsLeft, holdsRight, valueLeft, valueRight, ?_⟩
  intro bits typed
  obtain rfl := widthOf_int typed
  exact Option.some.inj computed

theorem of_convertIn {conversion : Conversion} {target : Nat}
    (computed : m.convertIn env id conversion (.int target) = some number) :
    ∃ operand value, m.operand? id 0 = some operand ∧ m.valueIn env operand = some value ∧
      ∀ bits, m.typeOf operand = .int bits → ∃ result : BitVec target,
        conversion.evaluate target (BitVec.ofNat bits value) = some result ∧
          result.toNat = number := by
  obtain ⟨operand, holds, computed⟩ := Option.bind_eq_some_iff.mp computed
  obtain ⟨value, known, computed⟩ := Option.bind_eq_some_iff.mp computed
  obtain ⟨width, same, computed⟩ := Option.bind_eq_some_iff.mp computed
  obtain rfl : target = width := Option.some.inj same
  obtain ⟨result, evaluated, computed⟩ := Option.bind_eq_some_iff.mp computed
  refine ⟨operand, value, holds, known, ?_⟩
  intro bits typed
  obtain rfl := widthOf_int typed
  exact ⟨result, evaluated, Option.some.inj computed⟩

end Module

namespace Lowering

open Asm

variable {lowering : Lowering} {base : BitVec 64} {env : Env} {machine before : Machine}
variable {id block : ValueId} {bits number : Nat} {start : Int} {held : Instruction}
variable {lines first store : List Line} {changed : List Register}

/-- **Lines compute a value into its home slot**, and nothing else that matters. -/
def Assigns (lowering : Lowering) (base : BitVec 64) (env : Env) (machine : Machine)
    (lines : List Line) (id : ValueId) (number : Nat) : Prop :=
  ∃ next, executeAll lines machine = some next ∧
    lowering.Represents base (env.set id number) next ∧
    next.registers .rsp = machine.registers .rsp

/-- An instruction with a result has a home slot. -/
theorem Integral.home_of_value (setting : lowering.Integral)
    (member : id ∈ lowering.subject.bodyOf lowering.function)
    (found : lowering.subject.instruction? id = some held) (value : held.opcode.isValue = true) :
    ∃ bits start, lowering.Home id bits start := by
  have isValue : lowering.subject.hasOpcode Opcode.isValue id = true := by
    rw [Module.hasOpcode, Module.opcode?, found]
    exact value
  refine setting.exists_home (List.mem_append_right _ (List.mem_filter.mpr ⟨member, ?_⟩))
  obtain ⟨width, _, typed⟩ := setting.integral.results id member isValue
  rw [Module.producesValue, isValue, typed]
  rfl

/-- An operand that is an integer is one of a width that registers hold. -/
theorem Integral.wide_of_operand {value : ValueId} {slot width : Nat} (setting : lowering.Integral)
    (member : id ∈ lowering.subject.bodyOf lowering.function)
    (found : lowering.subject.instruction? id = some held)
    (filled : held.operand slot = some value)
    (typed : lowering.subject.typeOf value = .int width) : width ∈ registerWidths := by
  have listed : some value ∈ lowering.subject.operandsOf id := by
    rw [Module.operandsOf, found]
    exact List.mem_of_getElem? (Option.join_eq_some_iff.mp filled)
  obtain ⟨width', wide, typed'⟩ :=
    setting.integral.operands id member value listed (by rw [typed]; exact Ty.noConfusion)
  rw [typed] at typed'
  cases typed'
  exact wide

/-- What has been put into its home slot has been computed. -/
theorem assigns_of_sets (setting : lowering.Integral)
    (represents : lowering.Represents base env machine) (home : lowering.Home id bits start)
    (sets : lowering.Sets machine lines id number) (fits : number < 2 ^ bits) :
    Assigns lowering base env machine lines id number := by
  obtain ⟨next, start', size, ran, placed, _, stored, kept⟩ := sets
  obtain rfl : start = start' := Option.some.inj (home.slot.symm.trans placed.slot)
  obtain rfl := placed.size_eq (home.typed ▸ size_int home.wide)
  rw [represents.pointer] at stored
  exact ⟨next, ran, represents.set setting home fits (kept .rbp (by decide)) stored,
    kept .rsp (by decide)⟩

/-- **The code of a binary operation computes its result.** -/
theorem assigns_binary {operation : BinaryOp} (setting : lowering.Integral)
    (represents : lowering.Represents base env machine)
    (member : id ∈ lowering.subject.bodyOf lowering.function)
    (found : lowering.subject.instruction? id = some held)
    (kind : held.opcode = .binary operation) (code : lowering.binary id operation = .ok lines)
    (computed : lowering.subject.binaryIn env id operation = some number) :
    Assigns lowering base env machine lines id number := by
  obtain ⟨bits, start, home⟩ := setting.home_of_value member found (by rw [kind]; rfl)
  obtain ⟨left, right, one, other, holdsLeft, holdsRight, valueLeft, valueRight, computed⟩ :=
    Module.of_binaryIn computed
  -- Both operands have the type of the result.
  obtain ⟨typedLeft, typedRight⟩ : lowering.subject.typeOf left = .int bits ∧
      lowering.subject.typeOf right = .int bits := by
    obtain ⟨_, _, accepts⟩ := setting.accepted.accepts member found
    obtain ⟨left', right', type, filledLeft, filledRight, sameLeft, sameRight⟩ :=
      RuleContext.operands_of_binary accepts.rules kind
    obtain ⟨first, filled, typed⟩ := Module.typeOf_first found kind home.typed
    rw [Module.operand?_of_instruction? found] at holdsLeft holdsRight
    obtain rfl := Option.some.inj (holdsLeft.symm.trans filledLeft)
    obtain rfl := Option.some.inj (holdsRight.symm.trans filledRight)
    obtain rfl := Option.some.inj (filledLeft.symm.trans filled)
    exact ⟨typed, sameRight.trans (sameLeft.symm.trans typed)⟩
  obtain ⟨result, evaluated, rfl⟩ := computed bits typedLeft
  have fitsLeft := (represents.found valueLeft typedLeft home.wide).1
  have fitsRight := (represents.found valueRight typedRight home.wide).1
  rw [← represents.number_eq valueLeft typedLeft home.wide] at fitsLeft evaluated
  rw [← represents.number_eq valueRight typedRight home.wide] at fitsRight evaluated
  have sets := sets_binary holdsLeft holdsRight (congrArg Ty.bits? typedLeft)
    (congrArg Ty.bits? typedRight) (congrArg Ty.bits? home.typed) fitsLeft fitsRight code evaluated
  exact assigns_of_sets setting represents home sets result.isLt

/-- **The code of a comparison computes whether it holds.** -/
theorem assigns_compare {predicate : Predicate} (setting : lowering.Integral)
    (represents : lowering.Represents base env machine)
    (member : id ∈ lowering.subject.bodyOf lowering.function)
    (found : lowering.subject.instruction? id = some held)
    (kind : held.opcode = .compare predicate) (code : lowering.compare id predicate = .ok lines)
    (computed : lowering.subject.compareIn env id predicate = some number) :
    Assigns lowering base env machine lines id number := by
  obtain ⟨bits, start, home⟩ := setting.home_of_value member found (by rw [kind]; rfl)
  obtain rfl : bits = 1 := by
    have typed := home.typed.symm.trans (Module.typeOf_compare found kind)
    cases typed
    rfl
  obtain ⟨left, right, one, other, holdsLeft, holdsRight, valueLeft, valueRight, computed⟩ :=
    Module.of_compareIn computed
  obtain ⟨_, _, accepts⟩ := setting.accepted.accepts member found
  obtain ⟨left', right', width, filledLeft, filledRight, typedLeft, typedRight⟩ :=
    RuleContext.operands_of_compare accepts.rules kind
  obtain rfl : left = left' := by
    rw [Module.operand?_of_instruction? found, filledLeft] at holdsLeft
    exact (Option.some.inj holdsLeft).symm
  obtain rfl : right = right' := by
    rw [Module.operand?_of_instruction? found, filledRight] at holdsRight
    exact (Option.some.inj holdsRight).symm
  have wide := setting.wide_of_operand member found filledLeft typedLeft
  have fitsLeft := (represents.found valueLeft typedLeft wide).1
  have fitsRight := (represents.found valueRight typedRight wide).1
  have sameLeft := represents.number_eq valueLeft typedLeft wide
  have sameRight := represents.number_eq valueRight typedRight wide
  have sets := sets_compare holdsLeft holdsRight (congrArg Ty.bits? typedLeft)
    (congrArg Ty.bits? typedRight) home.typed (sameLeft.symm ▸ fitsLeft)
    (sameRight.symm ▸ fitsRight) code
  rw [sameLeft, sameRight, computed width typedLeft] at sets
  refine assigns_of_sets setting represents home sets ?_
  rw [← computed width typedLeft]
  cases predicate.holds (BitVec.ofNat width one) (BitVec.ofNat width other) <;> decide

/-- **The code of a conversion computes its result.** -/
theorem assigns_convert {conversion : Conversion} {target : Ty} (setting : lowering.Integral)
    (represents : lowering.Represents base env machine)
    (member : id ∈ lowering.subject.bodyOf lowering.function)
    (found : lowering.subject.instruction? id = some held)
    (kind : held.opcode = .convert conversion target)
    (code : lowering.convert id conversion target = .ok lines)
    (computed : lowering.subject.convertIn env id conversion target = some number) :
    Assigns lowering base env machine lines id number := by
  obtain ⟨bits, start, home⟩ := setting.home_of_value member found (by rw [kind]; rfl)
  have typed := Module.typeOf_convert found kind
  obtain rfl : target = .int bits := typed.symm.trans home.typed
  have integral : conversion = .sext ∨ conversion = .zext ∨ conversion = .trunc := by
    obtain ⟨held', found', integral⟩ := setting.instruction member
    obtain rfl := Option.some.inj (found.symm.trans found')
    rw [kind] at integral
    cases conversion <;> simp [Opcode.isIntegral] at integral ⊢
  obtain ⟨value, operand, holds, known, computed⟩ := Module.of_convertIn computed
  obtain ⟨_, _, accepts⟩ := setting.accepted.accepts member found
  obtain ⟨value', source, _, filled, typedValue, _, _⟩ := accepts.convert kind integral
  obtain rfl : value = value' := by
    rw [Module.operand?_of_instruction? found, filled] at holds
    exact (Option.some.inj holds).symm
  have wide := setting.wide_of_operand member found filled typedValue
  obtain ⟨result, evaluated, rfl⟩ := computed source typedValue
  have fits := (represents.found known typedValue wide).1
  rw [← represents.number_eq known typedValue wide] at fits evaluated
  obtain ⟨exact, converts, rfl⟩ := Conversion.exact_of_evaluate fits evaluated
  have sets := sets_convert holds (congrArg Ty.bits? typedValue) (congrArg Ty.bits? home.typed)
    converts (typed.symm ▸ code)
  exact assigns_of_sets setting represents home sets (BitVec.isLt _)

end Lowering

end SsaAmd64
