/-
**Where the operands of an accepted instruction come from.**

An operand is a literal, a global or a function, or it belongs to the function of the instruction:
as a parameter, as a block or as an instruction in one of the blocks.

* `Module.InScope`: what an instruction of a function may name;
* `Module.Built.inScope`: accepted instructions name nothing else;
* `Module.Accepted`: a function of an accepted module.
-/

import SsaAmd64.Proofs.Ir.Listed
import SsaAmd64.Proofs.Validation.Accepted

namespace SsaAmd64

namespace Module

variable {m : Module} {function block id value : ValueId} {position : Nat}
variable {instruction : Instruction}

/-- **What an instruction of a function may name.** -/
inductive InScope (m : Module) (function value : ValueId) : Prop
  | literal {held : Literal} (found : m.literal? value = some held)
  | global {held : Global} (found : m.global? value = some held)
  | function {held : Function} (found : m.function? value = some held)
  | parameter (member : value ∈ m.parametersOf function)
  | block (member : value ∈ m.blocksOf function)
  | instruction (member : value ∈ m.bodyOf function)

/-- An operand that belongs to a function belongs to the function of the instruction. -/
theorem owner?_of_accepts {owner : ValueId}
    (accepts : (RuleContext.of m function).Accepts block position instruction)
    (member : value ∈ instruction.values) (owned : m.owner? value = some owner) :
    owner = function := by
  obtain ⟨_, _, own⟩ := ok_of_bind (ok_of_forM accepts.scope value member)
  have native : (RuleContext.of m function).isForeign value = decide (owner ≠ function) := by
    have owned' : (RuleContext.of m function).subject.owner? value = some owner := owned
    rw [RuleContext.isForeign, owned']
    rfl
  have passed := Fault.ifNot_eq_ok_iff.mp own
  rw [native] at passed
  simpa using passed

/-- An attached instruction belongs to a function. -/
theorem Built.owner?_of_blockOf? (built : Built m) (placed : m.blockOf? value = some block) :
    ∃ owner, m.owner? value = some owner := by
  obtain ⟨held, found, place⟩ := Option.bind_eq_some_iff.mp placed
  have listed := built.listed.mem_instructionsOf placed
  rw [instructionsOf] at listed
  cases content : m.block? block with
  | none =>
    rw [content] at listed
    cases listed
  | some content' =>
    refine ⟨content'.function, ?_⟩
    rw [owner?, content?_of_instruction? found]
    show held.block.bind (fun block => (m.block? block).map Block.function) = _
    rw [place, Option.bind_some, content]
    rfl

/-- **Accepted instructions name what is in scope.** -/
theorem Built.inScope (built : Built m)
    (accepts : (RuleContext.of m function).Accepts block position instruction)
    (member : value ∈ instruction.values) (present : m.content? value ≠ none) :
    m.InScope function value := by
  have owned : ∀ owner, m.owner? value = some owner → m.InScope function value := by
    intro owner owned
    rw [owner?_of_accepts accepts member owned] at owned
    rcases built.mem_of_owner? owned with parameter | block | instruction
    · exact .parameter parameter
    · exact .block block
    · exact .instruction instruction
  cases content : m.content? value with
  | none => exact absurd content present
  | some held =>
    cases held with
    | literal held => exact .literal (show m.literal? value = some held by rw [literal?, content])
    | global held => exact .global (show m.global? value = some held by rw [global?, content])
    | function held => exact .function (show m.function? value = some held by rw [function?, content])
    | parameter held => exact owned held.function (by rw [owner?, content])
    | block held => exact owned held.function (by rw [owner?, content])
    | instruction held =>
      have isInstruction : (m.instruction? value).isSome := by
        rw [instruction?, content]
        rfl
      obtain ⟨source, placed⟩ := accepts.attached member isInstruction
      obtain ⟨owner, found⟩ := built.owner?_of_blockOf? placed
      exact owned owner found

/-- **A function of an accepted module.** -/
structure Accepted (m : Module) (function : ValueId) : Prop where
  built : Built m
  valid : m.validate = .ok ()
  member : function ∈ m.functions

namespace Accepted

/-- An instruction of the function has passed its checks in its block. -/
theorem accepts (accepted : m.Accepted function) (listed : id ∈ m.bodyOf function)
    (found : m.instruction? id = some instruction) :
    ∃ block position, (RuleContext.of m function).Accepts block position instruction := by
  obtain ⟨block, inside, listed⟩ := List.mem_flatMap.mp listed
  obtain ⟨position, place⟩ := List.mem_iff_getElem?.mp listed
  exact ⟨block, position, accepts_of_validate accepted.valid accepted.member inside place found⟩

theorem instruction? (accepted : m.Accepted function) (listed : id ∈ m.bodyOf function) :
    ∃ held, m.instruction? id = some held := by
  obtain ⟨block, _, listed⟩ := List.mem_flatMap.mp listed
  obtain ⟨held, found, _⟩ := Option.bind_eq_some_iff.mp (accepted.built.linked.place listed)
  exact ⟨held, found⟩

theorem inScope (accepted : m.Accepted function) (listed : id ∈ m.bodyOf function)
    (found : m.instruction? id = some instruction) (used : value ∈ instruction.values)
    (present : m.content? value ≠ none) : m.InScope function value := by
  obtain ⟨block, position, accepts⟩ := accepted.accepts listed found
  exact accepted.built.inScope accepts used present

end Accepted

theorem mem_values_of_operand {slot : Nat} (filled : instruction.operand slot = some value) :
    value ∈ instruction.values :=
  List.mem_filterMap.mpr
    ⟨some value, List.mem_of_getElem? (Option.join_eq_some_iff.mp filled), rfl⟩

end Module

end SsaAmd64
