/-
**Pointing all uses of a value at another.**

The users are taken from the list of uses as it is at the start, while every slot that is filled
changes the lists of both values. A user may stand in the list many times, with others in between,
and only neighbours are taken together, so the slots of a user may be gone through again. All slots
that hold the value are reached, because uses and slots agree.

* `Module.operandsOf_foldl_slots`: what becomes of the slots of one instruction;
* `Module.Balanced.operandsOf_redirectUses`: what becomes of all slots of a module;
* `Module.Built.replaceUses_exact`: slots and uses after one value has taken the place of another.
-/

import SsaAmd64.Proofs.Ir.DefUse

namespace SsaAmd64

/-! ### Lists -/

/-- A list all of whose places are changed, one after the other. -/
theorem foldl_modify_range {α : Type} (change : α → α) (elements : List α) :
    (List.range elements.length).foldl (fun list place => list.modify place change) elements =
      elements.map change := by
  have upTo : ∀ count index : Nat,
      ((List.range count).foldl (fun list place => list.modify place change) elements)[index]? =
        if index < count then elements[index]?.map change else elements[index]? := by
    intro count index
    induction count with
    | zero => rfl
    | succ count ih =>
      rw [List.range_succ, List.foldl_append, List.foldl_cons, List.foldl_nil,
        List.getElem?_modify, ih]
      rcases Nat.lt_trichotomy index count with less | same | greater
      · rw [if_pos less, if_pos (Nat.lt_succ_of_lt less)]
        simp only [if_neg (Nat.ne_of_gt less)]
        exact id_map' _
      · rw [if_neg (same ▸ Nat.lt_irrefl _), if_pos (same ▸ Nat.lt_succ_self _)]
        simp only [if_pos same.symm]
        rfl
      · rw [if_neg (Nat.lt_asymm greater), if_neg (by omega)]
        simp only [if_neg (Nat.ne_of_lt greater)]
        exact id_map' _
  refine List.ext_getElem? fun index => ?_
  rw [upTo, List.getElem?_map]
  split
  case isTrue => rfl
  case isFalse outside =>
    rw [List.getElem?_eq_none (Nat.le_of_not_lt outside)]
    rfl

/-- What is left of a list whose neighbours that are equal count once. -/
theorem mem_eraseReps_iff {α : Type} [BEq α] [LawfulBEq α] {elements : List α} {element : α} :
    element ∈ elements.eraseReps ↔ element ∈ elements := by
  have loop : ∀ (others : List α) (first : α) (before : List α),
      element ∈ List.eraseRepsBy.loop (· == ·) first others before ↔
        element ∈ before ∨ element ∈ first :: others := by
    intro others
    induction others with
    | nil =>
      intro first before
      rw [List.eraseRepsBy.loop, List.mem_reverse, List.mem_cons, List.mem_singleton, or_comm]
    | cons second others ih =>
      intro first before
      rw [List.eraseRepsBy.loop]
      split
      case h_1 same =>
        rw [ih, eq_of_beq same, List.mem_cons (b := second) (l := second :: others)]
        simp only [List.mem_cons, or_self_left]
      case h_2 =>
        rw [ih]
        simp only [List.mem_cons]
        tauto
  cases elements with
  | nil => rfl
  | cons first others =>
    rw [List.eraseReps, List.eraseRepsBy, loop]
    simp only [List.not_mem_nil, false_or]

namespace Module

variable {m next : Module} {user old new other : ValueId}

/-! ### The slots of one instruction -/

/-- What becomes of the slots of an instruction, gone through one after the other. -/
theorem operandsOf_foldl_slots {step : Module → Nat → Module} {change : Slot → Slot}
    (changes : ∀ m slot other, (step m slot).operandsOf other =
      if other = user then (m.operandsOf user).modify slot change else m.operandsOf other)
    (m : Module) (other : ValueId) :
    ((List.range (m.operandsOf user).length).foldl step m).operandsOf other =
      if other = user then (m.operandsOf user).map change else m.operandsOf other := by
  have through : ∀ (slots : List Nat) (m : Module), (slots.foldl step m).operandsOf other =
      if other = user then
        slots.foldl (fun list slot => list.modify slot change) (m.operandsOf user)
      else m.operandsOf other := by
    intro slots
    induction slots with
    | nil =>
      intro m
      rw [List.foldl_nil, List.foldl_nil]
      split
      case isTrue same => rw [same]
      case isFalse => rfl
    | cons slot slots ih =>
      intro m
      rw [List.foldl_cons, List.foldl_cons, ih, changes, changes, if_pos rfl]
      split <;> rfl
  rw [through, foldl_modify_range]

/-- A slot of which the value is replaced, if it is the given one. -/
theorem operandsOf_redirectSlot (m : Module) (user old new : ValueId) (slot : Nat)
    (other : ValueId) :
    (if m.operand? user slot = some old then m.fillSlot user slot (some new) else m).operandsOf
        other =
      if other = user then (m.operandsOf user).modify slot fun held =>
        if held = some old then some new else held
      else m.operandsOf other := by
  have unchanged : m.operand? user slot ≠ some old →
      (m.operandsOf user).modify slot (fun held => if held = some old then some new else held) =
        m.operandsOf user := by
    intro different
    refine List.ext_getElem? fun index => ?_
    rw [List.getElem?_modify]
    cases here : (m.operandsOf user)[index]? with
    | none => rfl
    | some held =>
      refine congrArg some (ite_eq_right_iff.mpr fun same => if_neg fun equal => different ?_)
      rw [operand?, same, here, equal]
      rfl
  split
  case isTrue held =>
    rw [operandsOf_fillSlot]
    refine ite_congr rfl (fun _ => List.ext_getElem? fun index => ?_) fun _ => rfl
    rw [operand?, Option.join_eq_some_iff] at held
    rw [List.getElem?_set, List.getElem?_modify]
    split
    case isTrue same =>
      rw [← same, held, if_pos (List.getElem?_eq_some_iff.mp held).1]
      exact congrArg some (if_pos rfl).symm
    case isFalse => exact (id_map' _).symm
  case isFalse different =>
    rw [unchanged different]
    split
    case isTrue same => rw [same]
    case isFalse => rfl

/-- **The slots of one user.** -/
theorem operandsOf_redirect (m : Module) (user old new other : ValueId) :
    (m.redirect user old new).operandsOf other =
      if other = user then
        (m.operandsOf user).map fun slot => if slot = some old then some new else slot
      else m.operandsOf other :=
  operandsOf_foldl_slots
    (fun m slot other => operandsOf_redirectSlot m user old new slot other) m other

/-! ### All slots -/

/-- Going through the slots of a user again changes nothing more. -/
theorem operandsOf_foldl_redirect (users : List ValueId) (m : Module) (old new other : ValueId) :
    (users.foldl (fun m user => m.redirect user old new) m).operandsOf other =
      if other ∈ users then
        (m.operandsOf other).map fun slot => if slot = some old then some new else slot
      else m.operandsOf other := by
  induction users generalizing m with
  | nil => rfl
  | cons user users ih =>
    rw [List.foldl_cons, ih, operandsOf_redirect]
    by_cases same : other = user
    · rw [if_pos same, if_pos (List.mem_cons.mpr (.inl same)), same, List.map_map]
      have again : ((fun slot : Slot => if slot = some old then some new else slot) ∘
          fun slot => if slot = some old then some new else slot) =
          fun slot => if slot = some old then some new else slot := by
        funext slot
        rw [Function.comp_apply]
        by_cases held : slot = some old
        · rw [if_pos held, ite_self]
        · rw [if_neg held, if_neg held]
      rw [again, ite_self]
    · rw [if_neg same]
      refine ite_congr ?_ (fun _ => rfl) fun _ => rfl
      rw [List.mem_cons, or_iff_right same]

/-- Slots that do not hold a value stay as they are. -/
theorem map_redirect_of_not_mem {slots : List Slot} (absent : some old ∉ slots) (filling : Slot) :
    (slots.map fun slot => if slot = some old then filling else slot) = slots := by
  have untouched : ∀ slot ∈ slots, (if slot = some old then filling else slot) = id slot :=
    fun slot member => if_neg (ne_of_mem_of_not_mem member absent)
  rw [List.map_congr_left untouched, List.map_id]

/-- **All slots that held a value hold the other, and all other slots are as they were.** What is
not in the list of uses has no such slot. -/
theorem Balanced.operandsOf_redirectUses (balanced : Balanced m) (old new other : ValueId) :
    (m.redirectUses old new).operandsOf other =
      (m.operandsOf other).map fun slot => if slot = some old then some new else slot := by
  rw [Module.redirectUses, operandsOf_foldl_redirect]
  split
  case isTrue => rfl
  case isFalse absent =>
    rw [mem_eraseReps_iff, ← List.count_eq_zero, balanced, List.count_eq_zero] at absent
    exact (map_redirect_of_not_mem absent (some new)).symm

/-- A value that is not used is in no slot. -/
theorem Balanced.uses_eq_nil_iff (balanced : Balanced m) (value : ValueId) :
    m.uses value = [] ↔ ∀ user, some value ∉ m.operandsOf user := by
  simp only [List.eq_nil_iff_forall_not_mem, ← List.count_eq_zero, balanced value]

/-- How often slots hold a value after others have been replaced by it. -/
theorem count_map_redirect (slots : List Slot) (different : old ≠ new) :
    (slots.map fun slot => if slot = some old then some new else slot).count (some new) =
      slots.count (some old) + slots.count (some new) := by
  induction slots with
  | nil => rfl
  | cons slot slots ih =>
    rw [List.map_cons, List.count_cons, List.count_cons, List.count_cons, ih]
    by_cases held : slot = some old
    · subst held
      simp [different]
      omega
    · simp [held]
      omega

/-! ### Replacing a value -/

theorem requireValue_eq_ok (present : (m.entry? other).isSome) : m.requireValue other = .ok () :=
  if_pos present

theorem replaceUses_eq_ok (oldPresent : (m.entry? old).isSome)
    (newPresent : (m.entry? new).isSome) :
    m.replaceUses old new = .ok (m.redirectUses old new) := by
  rw [replaceUses, requireValue_eq_ok oldPresent, requireValue_eq_ok newPresent]
  rfl

/-- **In every module that can be built, any value can take the place of any other, and it takes
exactly its places**: whatever held the one holds the other, in a block or out of one, no slot else
changes, and the uses of both are counted together at the new value. -/
theorem Built.replaceUses_exact (built : Built m) (different : old ≠ new)
    (oldPresent : (m.entry? old).isSome) (newPresent : (m.entry? new).isSome) :
    ∃ next, m.replaceUses old new = .ok next ∧
      (∀ user, next.operandsOf user =
        (m.operandsOf user).map fun slot => if slot = some old then some new else slot) ∧
      next.uses old = [] ∧
      ∀ user, (next.uses new).count user = (m.uses old).count user + (m.uses new).count user := by
  have slots := built.balanced.operandsOf_redirectUses old new
  have balanced : Balanced (m.redirectUses old new) :=
    (built.balanced.redirectUses old ((m.entry?_isSome_iff new).mp newPresent)).1
  refine ⟨_, replaceUses_eq_ok oldPresent newPresent, slots, ?_, fun user => ?_⟩
  · refine (balanced.uses_eq_nil_iff old).mpr fun user member => ?_
    rw [slots] at member
    obtain ⟨slot, _, here⟩ := List.mem_map.mp member
    split at here
    case isTrue => exact different (Option.some.inj here).symm
    case isFalse other => exact other here
  · rw [balanced, slots, count_map_redirect _ different, ← built.balanced, ← built.balanced]

/-- Two sums of a parameter with itself, the first of which is taken out of its block, and gets its
operands back one by one. -/
def entwinedSteps : List Operation :=
  [.addFunction ⟨[.int 32, .int 32], .int 32, false⟩ "f", .addBlock ⟨0⟩ .finish "entry",
    .insert ⟨some (.finish ⟨3⟩)⟩ (.binary .add ⟨1⟩ ⟨1⟩) "first",
    .insert ⟨some (.finish ⟨3⟩)⟩ (.binary .add ⟨1⟩ ⟨2⟩) "second", .remove ⟨4⟩ none,
    .replaceOperand ⟨4⟩ 0 (some ⟨1⟩), .replaceOperand ⟨5⟩ 1 (some ⟨1⟩),
    .replaceOperand ⟨4⟩ 1 (some ⟨1⟩)]

def entwined : Module := builtBy "entwined" entwinedSteps

/-- Users that alternate in the list of uses, one of them without a block. -/
theorem replaceUses_exact_entwined : entwined.uses ⟨1⟩ = [⟨5⟩, ⟨4⟩, ⟨5⟩, ⟨4⟩] ∧
    entwined.blockOf? ⟨4⟩ = none ∧ ∃ next, entwined.replaceUses ⟨1⟩ ⟨2⟩ = .ok next ∧
      (∀ user, next.operandsOf user = (entwined.operandsOf user).map fun slot =>
        if slot = some ⟨1⟩ then some ⟨2⟩ else slot) ∧
      next.uses ⟨1⟩ = [] ∧
      ∀ user, (next.uses ⟨2⟩).count user =
        (entwined.uses ⟨1⟩).count user + (entwined.uses ⟨2⟩).count user :=
  ⟨by decide +kernel, by decide +kernel,
    Built.replaceUses_exact (built_builtBy "entwined" entwinedSteps) (by decide)
      (by decide +kernel) (by decide +kernel)⟩

end Module

end SsaAmd64
