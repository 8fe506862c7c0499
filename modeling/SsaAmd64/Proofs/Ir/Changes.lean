/-
**What single changes of a module do to its values.**

Every operation is made of a few changes, each of which touches one value or adds one. What a value
is, what it is used by and what its slots hold are read off its place in the arena.

* `Module.entry?_modify`, `Module.entry?_push`: the places after a change;
* `Module.uses_modify`, `Module.operandsOf_modify`: what is used and what is held after it;
* `Module.Alike`: two modules in which the same slots hold and the same uses are recorded.
-/

import SsaAmd64.Proofs.Ir.Operations

namespace SsaAmd64

namespace Content

/-- The operand slots of a value, if it is an instruction. -/
def slots : Content → List Slot
  | .instruction held => held.operands
  | _ => []

end Content

namespace Module

variable {m : Module} {id other : ValueId} {change : Entry → Entry}

theorem entry?_isSome_iff (m : Module) (id : ValueId) :
    (m.entry? id).isSome ↔ id.index < m.entries.size := by
  rw [Module.entry?, isSome_getElem?]

theorem operandsOf_eq (m : Module) (id : ValueId) :
    m.operandsOf id = ((m.entry? id).map fun entry => entry.content.slots).getD [] := by
  rw [operandsOf, instruction?, content?]
  cases m.entry? id with
  | none => rfl
  | some entry =>
    obtain ⟨content, name, uses⟩ := entry
    cases content <;> rfl

theorem uses_of_fresh (fresh : m.entries.size ≤ id.index) : m.uses id = [] := by
  rw [uses, Module.entry?, Array.getElem?_eq_none fresh]
  rfl

theorem operandsOf_of_fresh (fresh : m.entries.size ≤ id.index) : m.operandsOf id = [] := by
  rw [operandsOf_eq, Module.entry?, Array.getElem?_eq_none fresh]
  rfl

/-- A property of modules that each step of a fold preserves. -/
theorem foldl_preserves {α : Type} {holds : Module → Prop} {step : Module → α → Module}
    (preserves : ∀ m element, holds m → holds (step m element)) (elements : List α) {m : Module}
    (start : holds m) : holds (elements.foldl step m) := by
  induction elements generalizing m with
  | nil => exact start
  | cons first others ih => exact ih (preserves m first start)

/-! ### Changes of one value -/

@[simp] theorem size_modify (m : Module) (id : ValueId) (change : Entry → Entry) :
    (m.modify id change).entries.size = m.entries.size :=
  Array.size_modify

theorem entry?_modify (m : Module) (id other : ValueId) (change : Entry → Entry) :
    Module.entry? (m.modify id change) other =
      if other = id then (m.entry? other).map change else m.entry? other := by
  rw [Module.entry?, Module.entry?, modify, Array.getElem?_modify]
  by_cases same : other = id
  · rw [if_pos same, if_pos (congrArg ValueId.index same.symm)]
  · have different : id.index ≠ other.index := fun equal => same (by
      cases id
      cases other
      exact congrArg ValueId.mk equal.symm)
    rw [if_neg same, if_neg different]

theorem uses_modify_of_ne (different : other ≠ id) (change : Entry → Entry) :
    (m.modify id change).uses other = m.uses other := by
  rw [uses, entry?_modify, if_neg different, uses]

theorem uses_modify (keeps : ∀ entry, (change entry).uses = entry.uses) (id other : ValueId) :
    (m.modify id change).uses other = m.uses other := by
  rw [uses, entry?_modify, uses]
  split
  · rw [Option.map_map]
    exact congrArg (Option.getD · []) (congrArg (Option.map · (m.entry? other)) (funext keeps))
  · rfl

theorem operandsOf_modify (keeps : ∀ entry, (change entry).content.slots = entry.content.slots)
    (id other : ValueId) : (m.modify id change).operandsOf other = m.operandsOf other := by
  rw [operandsOf_eq, entry?_modify, operandsOf_eq]
  split
  · rw [Option.map_map]
    exact congrArg (Option.getD · []) (congrArg (Option.map · (m.entry? other)) (funext keeps))
  · rfl

/-! ### New values -/

@[simp] theorem size_push (m : Module) (content : Content) (name : String) :
    (m.push content name).2.entries.size = m.entries.size + 1 :=
  Array.size_push _

theorem entry?_push (m : Module) (content : Content) (name : String) (id : ValueId) :
    Module.entry? (m.push content name).2 id =
      if id = ⟨m.entries.size⟩ then some ⟨content, name, []⟩ else m.entry? id := by
  rw [Module.entry?, Module.entry?, push, Array.getElem?_push]
  by_cases same : id = ⟨m.entries.size⟩
  · rw [if_pos same, if_pos (congrArg ValueId.index same)]
  · have different : id.index ≠ m.entries.size := fun equal => same (by
      cases id
      exact congrArg ValueId.mk equal)
    rw [if_neg same, if_neg different]

theorem uses_push (m : Module) (content : Content) (name : String) (id : ValueId) :
    (m.push content name).2.uses id = m.uses id := by
  rw [uses, entry?_push]
  split
  case isTrue same =>
    have fresh : m.entries.size ≤ id.index :=
      Nat.le_of_eq (congrArg ValueId.index same).symm
    rw [uses_of_fresh fresh]
    rfl
  case isFalse => rfl

theorem operandsOf_push (m : Module) (content : Content) (name : String) (id : ValueId) :
    (m.push content name).2.operandsOf id =
      if id = ⟨m.entries.size⟩ then content.slots else m.operandsOf id := by
  rw [operandsOf_eq, entry?_push]
  split
  · rfl
  · rw [operandsOf_eq]

/-! ### Changes that leave slots and uses alone -/

/-- The same slots hold the same values, and the same uses are recorded. -/
structure Alike (m next : Module) : Prop where
  uses : ∀ id, next.uses id = m.uses id
  operandsOf : ∀ id, next.operandsOf id = m.operandsOf id

namespace Alike

theorem refl (m : Module) : Alike m m :=
  ⟨fun _ => rfl, fun _ => rfl⟩

theorem trans {first second third : Module} (one : Alike first second)
    (other : Alike second third) : Alike first third :=
  ⟨fun id => (other.uses id).trans (one.uses id),
    fun id => (other.operandsOf id).trans (one.operandsOf id)⟩

theorem modify (m : Module) (id : ValueId) (uses : ∀ entry, (change entry).uses = entry.uses)
    (slots : ∀ entry, (change entry).content.slots = entry.content.slots) :
    Alike m (m.modify id change) :=
  ⟨uses_modify uses id, operandsOf_modify slots id⟩

theorem modifyGlobal (m : Module) (id : ValueId) (change : Global → Global) :
    Alike m (m.modifyGlobal id change) := by
  refine modify m id ?_ ?_ <;>
  · rintro ⟨content, name, uses⟩
    cases content <;> rfl

theorem modifyFunction (m : Module) (id : ValueId) (change : Function → Function) :
    Alike m (m.modifyFunction id change) := by
  refine modify m id ?_ ?_ <;>
  · rintro ⟨content, name, uses⟩
    cases content <;> rfl

theorem modifyBlock (m : Module) (id : ValueId) (change : Block → Block) :
    Alike m (m.modifyBlock id change) := by
  refine modify m id ?_ ?_ <;>
  · rintro ⟨content, name, uses⟩
    cases content <;> rfl

theorem modifyInstruction (m : Module) (id : ValueId) {change : Instruction → Instruction}
    (keeps : ∀ held, (change held).operands = held.operands) :
    Alike m (m.modifyInstruction id change) := by
  refine modify m id ?_ ?_
  · rintro ⟨content, name, uses⟩
    cases content <;> rfl
  · rintro ⟨content, name, uses⟩
    cases content with
    | instruction held => exact keeps held
    | _ => rfl

/-- A new value that is no instruction holds nothing and is not used. -/
theorem push (m : Module) {content : Content} (name : String) (none : content.slots = []) :
    Alike m (m.push content name).2 := by
  refine ⟨uses_push m content name, fun id => ?_⟩
  rw [operandsOf_push, none]
  split
  case isTrue same =>
    have fresh : m.entries.size ≤ id.index :=
      Nat.le_of_eq (congrArg ValueId.index same).symm
    rw [operandsOf_of_fresh fresh]
  case isFalse => rfl

end Alike

end Module

end SsaAmd64
