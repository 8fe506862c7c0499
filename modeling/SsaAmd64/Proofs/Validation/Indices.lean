/-
**The indices of an accepted address computation.**

They are there, they are integers, and the type of what they lead to is found. An index into a struct
names a field, and code reads it as a word; so the fields of a struct have to be counted in a word.

* `Ty.isCountable`: a type with no struct of more fields;
* `isCountable_of_leadsTo`: indices lead from such types to such types;
* `RuleContext.of_checkGep`: the base and the indices of an accepted address computation.
-/

import SsaAmd64.Proofs.Validation.Walks

namespace SsaAmd64

mutual

/-- **A type whose fields can be counted in a word**, in every struct inside it. -/
def Ty.isCountable : Ty → Bool
  | .pointer element => element.isCountable
  | .array _ element => element.isCountable
  | .struct _ fields => fields.length ≤ 0x8000000000000000 && areCountable fields
  | _ => true

def areCountable : List Ty → Bool
  | [] => true
  | field :: fields => field.isCountable && areCountable fields

end

theorem isCountable_of_mem {fields : List Ty} {field : Ty} (countable : areCountable fields = true)
    (member : field ∈ fields) : field.isCountable = true := by
  induction fields with
  | nil => cases member
  | cons first others ih =>
    rw [areCountable, Bool.and_eq_true] at countable
    rcases List.mem_cons.mp member with rfl | later
    · exact countable.1
    · exact ih countable.2 later

/-! ### Types that indices lead to -/

variable {m : Module} {position : Nat} {slot : Slot} {slots : List Slot} {type next : Ty}

theorem isCountable_of_stepsTo (leads : m.StepsTo position slot type next)
    (countable : type.isCountable = true) : next.isCountable = true := by
  cases leads with
  | pointer | array => exact countable
  | field _ _ _ named =>
    rw [Ty.isCountable, Bool.and_eq_true] at countable
    exact isCountable_of_mem countable.2 (List.mem_of_getElem? named)

theorem isCountable_of_leadsTo (leads : m.LeadsTo position slots type next)
    (countable : type.isCountable = true) : next.isCountable = true := by
  induction leads with
  | here => exact countable
  | step one _ ih => exact ih (isCountable_of_stepsTo one countable)

theorem length_le_of_isCountable {packed : Bool} {fields : List Ty}
    (countable : (Ty.struct packed fields).isCountable = true) :
    fields.length ≤ 0x8000000000000000 := by
  rw [Ty.isCountable, Bool.and_eq_true, decide_eq_true_iff] at countable
  exact countable.1

/-! ### Accepted indices -/

namespace RuleContext

variable {context : RuleContext} {held : Instruction}

/-- Slots that hold integers are filled. -/
theorem exists_indices (integers : ∀ slot ∈ slots, ∃ index width, slot = some index ∧
      context.subject.typeOf index = .int width) :
    ∃ indices : List ValueId, slots = indices.map some ∧
      ∀ index ∈ indices, ∃ width, context.subject.typeOf index = .int width := by
  induction slots with
  | nil => exact ⟨[], rfl, List.forall_mem_nil _⟩
  | cons slot slots ih =>
    obtain ⟨⟨index, width, rfl, integer⟩, others⟩ := List.forall_mem_cons.mp integers
    obtain ⟨indices, rfl, widths⟩ := ih others
    exact ⟨index :: indices, rfl, List.forall_mem_cons.mpr ⟨⟨width, integer⟩, widths⟩⟩

/-- **The base and the indices of an accepted address computation.** -/
theorem of_checkGep (accepted : context.checkGep held = .ok ()) (kind : held.opcode = .gep) :
    ∃ (base : ValueId) (element : Ty) (indices : List ValueId) (target : Ty),
      held.operand 0 = some base ∧
      context.subject.typeOf base = .pointer element ∧ held.operands.tail = indices.map some ∧
      (∀ index ∈ indices, ∃ width, context.subject.typeOf index = .int width) ∧
      context.subject.LeadsTo 0 (indices.map some) (.pointer element) target := by
  obtain ⟨base, element, filled, typed, _, checked⟩ := (checkGep_eq_ok_iff kind).mp accepted
  obtain ⟨integers, target, leads⟩ := checkIndices_eq_ok_iff.mp checked
  obtain ⟨indices, slots, integers⟩ := exists_indices integers
  exact ⟨base, element, indices, target, filled, typed, slots, integers, slots ▸ leads⟩

end RuleContext

end SsaAmd64
