/-
**Types of values.**

The type of a value may be made from that of another one, its origin. The look for a type goes from
one origin to the next, and it ends unless it gets into a circle.

* `Module.HasType`: the types of values, with no bound on the look for them;
* `Module.Circles`: values from which the origins lead into a circle;
* `Module.typeOf?_eq_some_iff`, `Module.typeOf?_eq_none_iff`: types are found where they exist, which
  is everywhere but there;
* `Module.typeOf_derived`: the type of a result, made from that of the first operand.
-/

import Mathlib.Data.Fintype.Pigeonhole
import Mathlib.Logic.Relation
import SsaAmd64.Proofs.Ir.DefUse

namespace SsaAmd64

namespace Module

variable {m : Module} {id origin value : ValueId} {type other : Ty} {depth width : Nat}

/-! ### The look for a type -/

/-- **The type of a value**, which is made from that of its origin if it has one. -/
inductive HasType (m : Module) : ValueId → Ty → Prop
  | settled {id : ValueId} : m.origin? id = none → HasType m id (m.typeFrom id none)
  | derived {id origin : ValueId} {type : Ty} : m.origin? id = some origin →
    HasType m origin type → HasType m id (m.typeFrom id (some type))

theorem HasType.unique (typed : m.HasType id type) (typed' : m.HasType id other) : type = other := by
  induction typed generalizing other with
  | settled none =>
    cases typed' with
    | settled => rfl
    | derived leads => cases none.symm.trans leads
  | derived leads _ ih =>
    cases typed' with
    | settled none => cases none.symm.trans leads
    | derived leads' inner =>
      obtain rfl := Option.some.inj (leads.symm.trans leads')
      rw [ih inner]

theorem hasType_of_typeWithin? (found : m.typeWithin? depth id = some type) : m.HasType id type := by
  induction depth generalizing id type with
  | zero => cases found
  | succ depth ih =>
    rw [typeWithin?] at found
    split at found
    case h_1 none =>
      obtain rfl := Option.some.inj found
      exact .settled none
    case h_2 leads =>
      obtain ⟨inner, found', rfl⟩ := Option.map_eq_some_iff.mp found
      exact .derived leads (ih found')

/-- A value and its origin. -/
def DerivesFrom (m : Module) (id origin : ValueId) : Prop :=
  m.origin? id = some origin

/-- **A value from which the origins lead into a circle.** -/
def Circles (m : Module) (id : ValueId) : Prop :=
  ∃ value, Relation.ReflTransGen m.DerivesFrom id value ∧ Relation.TransGen m.DerivesFrom value value

theorem Circles.exists_origin (circles : m.Circles id) :
    ∃ origin, m.origin? id = some origin ∧ m.Circles origin := by
  obtain ⟨value, reached, around⟩ := circles
  rcases reached.cases_head with rfl | ⟨origin, leads, reached⟩
  · obtain ⟨origin, leads, back⟩ := Relation.TransGen.head'_iff.mp around
    exact ⟨origin, leads, id, back, around⟩
  · exact ⟨origin, leads, value, reached, around⟩

/-- Where the origins lead into a circle, there is no type. -/
theorem HasType.not_circles (typed : m.HasType id type) : ¬m.Circles id := by
  induction typed with
  | settled none =>
    intro circles
    obtain ⟨origin, leads, _⟩ := circles.exists_origin
    cases none.symm.trans leads
  | derived leads _ ih =>
    intro circles
    obtain ⟨origin, leads', circles⟩ := circles.exists_origin
    obtain rfl := Option.some.inj (leads.symm.trans leads')
    exact ih circles

/-- There the look for a type has no end, however far it goes. -/
theorem Circles.typeWithin?_eq_none (circles : m.Circles id) (depth : Nat) :
    m.typeWithin? depth id = none := by
  cases found : m.typeWithin? depth id with
  | none => rfl
  | some type => exact absurd circles (hasType_of_typeWithin? found).not_circles

/-- A look that goes too far has visited as many values. -/
theorem exists_visited (far : m.typeWithin? depth id = none) : ∃ visited : Nat → ValueId,
    visited 0 = id ∧ ∀ place < depth, m.DerivesFrom (visited place) (visited (place + 1)) := by
  induction depth generalizing id with
  | zero => exact ⟨fun _ => id, rfl, fun _ less => absurd less (Nat.not_lt_zero _)⟩
  | succ depth ih =>
    rw [typeWithin?] at far
    split at far
    case h_1 => cases far
    case h_2 origin leads =>
      obtain ⟨visited, rfl, next⟩ := ih (Option.map_eq_none_iff.mp far)
      refine ⟨fun place => Nat.casesOn place id visited, rfl, fun place less => ?_⟩
      cases place with
      | zero => exact leads
      | succ place => exact next place (Nat.lt_of_succ_lt_succ less)

theorem lt_size_of_origin? (leads : m.origin? id = some origin) : id.index < m.entries.size := by
  obtain ⟨held, found, _⟩ := Option.bind_eq_some_iff.mp leads
  rw [instruction?] at found
  split at found
  case h_1 content => exact lt_size_of_content? content
  case h_2 => cases found

theorem reflTransGen_visited {visited : Nat → ValueId} {first last : Nat} (less : first ≤ last)
    (next : ∀ place < last, m.DerivesFrom (visited place) (visited (place + 1))) :
    Relation.ReflTransGen m.DerivesFrom (visited first) (visited last) := by
  induction last, less using Nat.le_induction with
  | base => exact .refl
  | succ last _ ih =>
    refine .tail (ih fun place less => next place (Nat.lt_succ_of_lt less)) ?_
    exact next last (Nat.lt_succ_self last)

/-- **A look past the size of the arena runs in a circle**: it has visited some value twice. -/
theorem circles_of_typeOf? (far : m.typeOf? id = none) : m.Circles id := by
  obtain ⟨visited, rfl, next⟩ := exists_visited far
  let slot (place : Fin (m.entries.size + 1)) : Fin m.entries.size :=
    ⟨(visited place).index, lt_size_of_origin? (next place place.isLt)⟩
  obtain ⟨first, second, different, equal⟩ :=
    Fintype.exists_ne_map_eq_of_card_lt slot (by simp)
  wlog less : first < second generalizing first second
  · exact this second first different.symm equal.symm
      (lt_of_le_of_ne (le_of_not_gt less) different.symm)
  have same : visited first = visited second := congrArg ValueId.mk (congrArg Fin.val equal)
  have upTo (last : Fin (m.entries.size + 1)) : ∀ place < (last : Nat),
      m.DerivesFrom (visited place) (visited (place + 1)) :=
    fun place before => next place (before.trans last.isLt)
  refine ⟨visited first, reflTransGen_visited (Nat.zero_le _) (upTo first), ?_⟩
  refine .head' (next first first.isLt) ?_
  rw [same]
  exact reflTransGen_visited (Nat.succ_le_of_lt less) (upTo second)

/-- **Types are found where they exist**, however far away. -/
theorem typeOf?_eq_some_iff : m.typeOf? id = some type ↔ m.HasType id type := by
  constructor
  · exact hasType_of_typeWithin?
  · intro typed
    cases found : m.typeOf? id with
    | none => exact absurd (circles_of_typeOf? found) typed.not_circles
    | some other => rw [typed.unique (hasType_of_typeWithin? found)]

/-- **Types exist everywhere but where the origins lead into a circle.** -/
theorem typeOf?_eq_none_iff : m.typeOf? id = none ↔ m.Circles id :=
  ⟨circles_of_typeOf?, fun circles => circles.typeWithin?_eq_none _⟩

/-! ### Types of results -/

theorem typeOf?_of_origin? (leads : m.origin? id = some origin) :
    m.typeOf? id = (m.typeOf? origin).map fun type => m.typeFrom id (some type) := by
  refine Option.ext fun type => ?_
  rw [typeOf?_eq_some_iff, Option.map_eq_some_iff]
  constructor
  · intro typed
    cases typed with
    | settled none => cases none.symm.trans leads
    | derived leads' inner =>
      obtain rfl := Option.some.inj (leads.symm.trans leads')
      exact ⟨_, typeOf?_eq_some_iff.mpr inner, rfl⟩
  · rintro ⟨inner, found, rfl⟩
    exact .derived leads (typeOf?_eq_some_iff.mp found)

theorem typeOf_settled (settled : m.origin? id = none) : m.typeOf id = m.typeFrom id none := by
  rw [typeOf, typeOf?_eq_some_iff.mpr (.settled settled), Option.getD_some]

theorem typeOf_of_not_instruction (other : m.instruction? id = none) :
    m.typeOf id = m.typeFrom id none :=
  typeOf_settled (by rw [origin?, other, Option.bind_none])

theorem typeOf_literal {literal : Literal} (found : m.literal? id = some literal) :
    m.typeOf id = literal.type := by
  rw [literal?] at found
  split at found
  case h_1 content =>
    obtain rfl := Option.some.inj found
    rw [typeOf_of_not_instruction (by rw [instruction?, content]), typeFrom, content]
  case h_2 => cases found

theorem typeOf_parameter {parameter : Parameter} (found : m.parameter? id = some parameter) :
    m.typeOf id = parameter.type := by
  rw [parameter?] at found
  split at found
  case h_1 content =>
    obtain rfl := Option.some.inj found
    rw [typeOf_of_not_instruction (by rw [instruction?, content]), typeFrom, content]
  case h_2 => cases found

theorem typeOf_global {held : Global} (found : m.global? id = some held) :
    m.typeOf id = .pointer held.storage := by
  rw [global?] at found
  split at found
  case h_1 content =>
    obtain rfl := Option.some.inj found
    rw [typeOf_of_not_instruction (by rw [instruction?, content]), typeFrom, content]
  case h_2 => cases found

theorem typeOf_function {held : Function} (found : m.function? id = some held) :
    m.typeOf id = held.signature.type := by
  rw [function?] at found
  split at found
  case h_1 content =>
    obtain rfl := Option.some.inj found
    rw [typeOf_of_not_instruction (by rw [instruction?, content]), typeFrom, content]
  case h_2 => cases found

theorem typeOf_block {held : Block} (found : m.block? id = some held) : m.typeOf id = .label := by
  have content := content?_of_block? found
  rw [typeOf_of_not_instruction (by rw [instruction?, content]), typeFrom, content]

/-- A value that is not there has no type. -/
theorem typeOf_of_absent (absent : m.content? id = none) : m.typeOf id = .void := by
  rw [typeOf_of_not_instruction (by rw [instruction?, absent]), typeFrom, absent]

theorem present_of_typeOf (typed : m.typeOf id ≠ .void) : m.content? id ≠ none :=
  fun absent => typed (typeOf_of_absent absent)

theorem content?_of_instruction? {held : Instruction} (found : m.instruction? id = some held) :
    m.content? id = some (.instruction held) := by
  rw [instruction?] at found
  split at found
  case h_1 same => rw [same, Option.some.inj found]
  case h_2 => cases found

section Instruction

variable {held : Instruction} (found : m.instruction? id = some held)
include found

theorem typeFrom_instruction (first : Option Ty) : m.typeFrom id first = m.resultType held first := by
  rw [typeFrom, content?_of_instruction? found]

/-- **The type of a result that is not made from that of an operand.** -/
theorem typeOf_plain (plain : held.opcode.isDerived = false) :
    m.typeOf id = m.resultType held none := by
  have settled : m.origin? id = none := by
    rw [origin?, found, Option.bind_some, Instruction.origin?, plain]
    rfl
  rw [typeOf_settled settled, typeFrom_instruction found]

theorem typeOf?_filled (derived : held.opcode.isDerived = true)
    (filled : held.operand 0 = some value) :
    m.typeOf? id = (m.typeOf? value).map fun type => m.resultType held (some type) := by
  have leads : m.origin? id = some value := by
    rw [origin?, found, Option.bind_some, Instruction.origin?, if_pos derived, filled]
  simp only [typeOf?_of_origin? leads, typeFrom_instruction found]

/-- **The type of a result is what its first operand makes of it.** -/
theorem typeOf_derived (filled : held.operand 0 = some value) (typed : m.typeOf value ≠ .void) :
    m.typeOf id = m.resultType held (some (m.typeOf value)) := by
  by_cases derived : held.opcode.isDerived = true
  · rw [typeOf, typeOf?_filled found derived filled]
    cases known : m.typeOf? value with
    | none => exact absurd (by rw [typeOf, known]; rfl) typed
    | some type => rw [typeOf, known]; rfl
  · rw [typeOf_plain found (by simpa using derived)]
    unfold resultType
    cases kind : held.opcode <;> simp_all [Opcode.isDerived]

theorem typeOf_alloc {storage : Ty} (alloc : held.opcode = .alloc storage) :
    m.typeOf id = .pointer storage := by
  rw [typeOf_plain found (by rw [alloc]; rfl), resultType, alloc]

theorem typeOf_compare {predicate : Predicate} (compare : held.opcode = .compare predicate) :
    m.typeOf id = .int 1 := by
  rw [typeOf_plain found (by rw [compare]; rfl), resultType, compare]

theorem typeOf_convert {conversion : Conversion} {target : Ty}
    (convert : held.opcode = .convert conversion target) : m.typeOf id = target := by
  rw [typeOf_plain found (by rw [convert]; rfl), resultType, convert]

theorem typeOf_phi (phi : held.opcode = .phi type) : m.typeOf id = type := by
  rw [typeOf_plain found (by rw [phi]; rfl), resultType, phi]

/-- What has no result has no type. -/
theorem typeOf_of_not_isValue (other : held.opcode.isValue = false) : m.typeOf id = .void := by
  have plain : held.opcode.isDerived = false := by
    cases kind : held.opcode <;> simp_all [Opcode.isValue, Opcode.isDerived]
  rw [typeOf_plain found plain, resultType]
  cases kind : held.opcode <;> simp_all [Opcode.isValue]

/-- **The result of a binary operation has the type of the first operand.** -/
theorem typeOf_binary {operation : BinaryOp} (binary : held.opcode = .binary operation)
    (filled : held.operand 0 = some value) : m.typeOf id = m.typeOf value := by
  have derived : held.opcode.isDerived = true := by rw [binary]; rfl
  have same : (fun type => m.resultType held (some type)) = fun type => type := by
    funext type
    rw [resultType, binary]
    rfl
  rw [typeOf, typeOf?_filled found derived filled, same, Option.map_id', typeOf]

/-- **Integers are added and the like to integers of the same width.** -/
theorem typeOf_first {operation : BinaryOp} (binary : held.opcode = .binary operation)
    (typed : m.typeOf id = .int width) :
    ∃ first, held.operand 0 = some first ∧ m.typeOf first = .int width := by
  cases filled : held.operand 0 with
  | none =>
    have settled : m.origin? id = none := by
      rw [origin?, found, Option.bind_some, Instruction.origin?, filled, ite_self]
    rw [typeOf_settled settled, typeFrom_instruction found, resultType, binary] at typed
    cases typed
  | some first => exact ⟨first, rfl, (typeOf_binary found binary filled).symm.trans typed⟩

/-- **An address computation yields a pointer**, if it has a type. -/
theorem typeOf_gep (gep : held.opcode = .gep) :
    m.typeOf id = .void ∨ ∃ element, m.typeOf id = .pointer element := by
  have made (first : Option Ty) : m.resultType held first = .void ∨
      ∃ element, m.resultType held first = .pointer element := by
    simp only [resultType, gep, addressType]
    split
    case h_1 element _ => exact .inr ⟨element, rfl⟩
    case h_2 => exact .inl rfl
  rw [typeOf]
  cases known : m.typeOf? id with
  | none => exact .inl rfl
  | some type =>
    rw [typeOf?_eq_some_iff] at known
    cases known with
    | settled => exact typeFrom_instruction found none ▸ made none
    | derived => exact typeFrom_instruction found _ ▸ made _

end Instruction

end Module

end SsaAmd64
