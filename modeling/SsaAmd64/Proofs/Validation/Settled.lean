/-
**Types of accepted instructions are found.**

Where the type of a result is made from that of the first operand, the rules ask for the type of the
operand and refuse `void`. So in an accepted function no look for a type gets into a circle.

* `Module.Accepted.typed_origin`: what the type of a result is made from has a type;
* `Module.Accepted.typeOf?_eq_some`: the types of all instructions are found.
-/

import SsaAmd64.Proofs.Validation.Scope

namespace SsaAmd64

namespace Module

namespace Accepted

variable {m : Module} {function id value : ValueId}

/-- **What the type of a result is made from has a type.** -/
theorem typed_origin (accepted : m.Accepted function) (listed : id ∈ m.bodyOf function)
    (leads : m.origin? id = some value) : m.typeOf value ≠ .void := by
  obtain ⟨held, found, rest⟩ := Option.bind_eq_some_iff.mp leads
  obtain ⟨block, position, accepts⟩ := accepted.accepts listed found
  rw [Instruction.origin?] at rest
  split at rest
  case isFalse => cases rest
  case isTrue derived =>
    cases kind : held.opcode with
    | load =>
      obtain ⟨pointer, element, filled, typed, _⟩ := accepts.load kind
      obtain rfl := Option.some.inj (filled.symm.trans rest)
      intro none
      cases typed.symm.trans none
    | binary operation =>
      obtain ⟨left, right, filled, _, _, present, _⟩ := accepts.scalars kind
      obtain rfl := Option.some.inj (filled.symm.trans rest)
      exact present
    | gep =>
      obtain ⟨base, element, filled, typed, _⟩ := accepts.gep kind
      obtain rfl := Option.some.inj (filled.symm.trans rest)
      intro none
      cases typed.symm.trans none
    | call =>
      obtain ⟨callee, signature, _, filled, typed, _⟩ := accepts.call kind
      obtain rfl := Option.some.inj (filled.symm.trans rest)
      intro none
      cases typed.symm.trans none
    | _ => rw [kind] at derived; cases derived

/-- **The types of all instructions of an accepted function are found.** -/
theorem typeOf?_eq_some (accepted : m.Accepted function) (listed : id ∈ m.bodyOf function) :
    m.typeOf? id = some (m.typeOf id) := by
  cases known : m.typeOf? id with
  | some type => rw [typeOf, known, Option.getD_some]
  | none =>
    obtain ⟨origin, leads, circles⟩ := (typeOf?_eq_none_iff.mp known).exists_origin
    refine absurd ?_ (accepted.typed_origin listed leads)
    rw [typeOf, typeOf?_eq_none_iff.mpr circles, Option.getD_none]

end Accepted

end Module

end SsaAmd64
