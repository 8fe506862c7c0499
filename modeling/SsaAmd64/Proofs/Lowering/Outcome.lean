/-
**Failures that are not the module's fault.**

Code generation gives up on types that have no layout, on types that cannot be passed and on
operations that it lacks. Its other failures are for modules that validation should have refused.
Computations that never end in one of these are put together from such computations.

* `Failure.isInternal`: the failures that a valid module must not meet;
* `Yields`: a computation whose results have a property, and which meets none of them;
* `Asm.Line.names`: the labels and symbols that a line carries;
* `Asm.Named`: lines in which none of them is empty.
-/

import SsaAmd64.Lowering.Module
import SsaAmd64.Proofs.Outcomes

namespace SsaAmd64

/-- Whether a construct is unsupported only because no valid module has it. -/
def Unsupported.isInternal : Unsupported → Bool
  | addressStorage .. | initialiserSize .. | blockAsValue .. | withoutSlot .. | missingOperand ..
  | allocWithoutStorage .. | addressThrough .. | indirectCall .. | missingCondition ..
  | missingTarget .. => true
  | functionName .. | duplicateSymbol .. | notInRegister .. | wideArithmetic .. | floatOperation ..
  | conversionTo .. | conversionFrom .. | structIndex .. => false

/-- Whether a failure is one that a valid module must not meet. -/
def Failure.isInternal : Failure → Bool
  | unsupported construct => construct.isInternal
  | invalid _ | layout _ | abi _ => false

variable {α β ε : Type} {holds : α → Prop} {result : β → Prop}

/-- **The results of a computation have a property, and no failure of it is internal.** -/
def Yields (holds : α → Prop) : Except Failure α → Prop
  | .ok value => holds value
  | .error failure => failure.isInternal = false

namespace Yields

theorem unsupported {construct : Unsupported} (external : construct.isInternal = false) :
    Yields holds (unsupported construct) :=
  external

/-- A step, and what comes after its success. -/
theorem bind {first : Except Failure α} {rest : α → Except Failure β} (one : Yields holds first)
    (other : ∀ value, first = .ok value → holds value → Yields result (rest value)) :
    Yields result (first >>= rest) := by
  cases first with
  | error failure => exact one
  | ok value => exact other value rfl one

/-- A step of another kind, none of whose failures is internal. -/
theorem mapError {step : Except ε α} {change : ε → Failure}
    (external : ∀ fault, (change fault).isInternal = false) :
    Yields (fun value => step = .ok value) (step.mapError change) := by
  cases step with
  | error fault => exact external fault
  | ok value => rfl

/-- A step for each element of a list. -/
theorem mapM {change : β → Except Failure α} {elements : List β}
    (each : ∀ element ∈ elements, Yields holds (change element)) :
    Yields (fun values => ∀ value ∈ values, holds value) (elements.mapM change) := by
  induction elements with
  | nil => exact fun _ member => (nomatch member)
  | cons first others ih =>
    obtain ⟨here, later⟩ := List.forall_mem_cons.mp each
    rw [List.mapM_cons]
    refine here.bind fun value _ one => (ih later).bind fun values _ all => ?_
    exact List.forall_mem_cons.mpr ⟨one, all⟩

theorem external {failure : Failure} {first : Except Failure α} (one : Yields holds first)
    (failed : first = .error failure) : failure.isInternal = false := by
  rwa [failed] at one

theorem sound {value : α} {first : Except Failure α} (one : Yields holds first)
    (done : first = .ok value) : holds value := by
  rwa [done] at one

/-- The layout of a type. -/
theorem extentInCode (type : Ty) :
    Yields (fun extent => type.extent = .ok extent) type.extentInCode :=
  mapError fun _ => rfl

theorem sizeInCode (type : Ty) : Yields (fun size => type.size = .ok size) type.sizeInCode :=
  mapError fun _ => rfl

end Yields

/-! ### Names in code -/

namespace Asm

/-- The symbol that an operand is relative to. -/
@[simp] def Operand.names : Operand → List String
  | relative symbol => [symbol]
  | _ => []

/-- **The labels and symbols that a line carries.** -/
@[simp] def Line.names : Line → List String
  | globl name | functionType name | label name | address name | jump name | jumpIf _ name
  | call name => [name]
  | mov _ source target | arithmetic _ _ source target => source.names ++ target.names
  | extend _ _ source _ | lea source _ | divide _ _ source => source.names
  | _ => []

/-- **No line carries an empty name.** -/
def Named (lines : List Line) : Prop :=
  ∀ line ∈ lines, ∀ name ∈ line.names, name ≠ ""

variable {line : Line} {first second : List Line}

@[simp] theorem named_nil : Named [] :=
  fun _ member => (nomatch member)

@[simp] theorem named_cons : Named (line :: first) ↔ (∀ name ∈ line.names, name ≠ "") ∧ Named first :=
  List.forall_mem_cons

@[simp] theorem named_append : Named (first ++ second) ↔ Named first ∧ Named second :=
  List.forall_mem_append

theorem named_flatten {parts : List (List Line)} (each : ∀ part ∈ parts, Named part) :
    Named parts.flatten := by
  intro line member
  obtain ⟨part, listed, inside⟩ := List.mem_flatten.mp member
  exact each part listed line inside

end Asm

end SsaAmd64
