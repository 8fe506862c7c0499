/-
**Uses and operand slots agree in every module that can be built.**

A use is recorded for each slot that holds a value: as many uses by an instruction as it has slots
with that value. Operations fill slots and record uses in several steps, between which an
instruction may hold values whose use has still to be recorded.

* `Module.Balanced`: uses and slots agree;
* `Module.Owing`: they agree up to the uses that one instruction has still to record;
* `Module.Balanced.fillSlot`: filling a slot preserves the agreement, whatever it held before;
* `Operation.balanced`: so does every operation;
* `Module.Built.balanced`: every module that can be built is balanced.
-/

import Mathlib.Data.List.Count
import SsaAmd64.Proofs.Ir.Changes
import SsaAmd64.Proofs.Outcomes

namespace SsaAmd64

namespace Module

/-- **The uses of each value by an instruction are as many as its slots that hold the value.** -/
def Balanced (m : Module) : Prop :=
  ∀ value user, (m.uses value).count user = (m.operandsOf user).count (some value)

/-- A module is balanced but for values that one instruction holds without a recorded use. -/
def Owing (m : Module) (user : ValueId) (owed : List ValueId) : Prop :=
  ∀ value other, (m.uses value).count other + (if user = other then owed.count value else 0) =
    (m.operandsOf other).count (some value)

variable {m next : Module} {user value other : ValueId} {owed : List ValueId} {slot : Nat}
variable {filling : Slot}

theorem owing_nil_iff : Owing m user [] ↔ Balanced m := by
  refine forall_congr' fun value => forall_congr' fun other => ?_
  rw [List.count_nil, ite_self, Nat.add_zero]

theorem Balanced.alike (balanced : Balanced m) (alike : Alike m next) : Balanced next := by
  intro value user
  rw [alike.uses, alike.operandsOf]
  exact balanced value user

/-! ### Recording uses -/

@[simp] theorem size_addUse (m : Module) (user value : ValueId) :
    (m.addUse user value).entries.size = m.entries.size :=
  size_modify m value _

theorem operandsOf_addUse (m : Module) (user value other : ValueId) :
    (m.addUse user value).operandsOf other = m.operandsOf other := by
  unfold addUse
  refine operandsOf_modify ?_ value other
  exact fun _ => rfl

theorem count_uses_addUse (present : value.index < m.entries.size) (held user' : ValueId) :
    ((m.addUse user value).uses held).count user' =
      (m.uses held).count user' + (if user = user' ∧ value = held then 1 else 0) := by
  by_cases same : held = value
  · obtain ⟨entry, found⟩ := Option.isSome_iff_exists.mp ((m.entry?_isSome_iff value).mpr present)
    have grown : (m.addUse user value).uses value = m.uses value ++ [user] := by
      rw [uses, addUse, entry?_modify, if_pos rfl, uses, found]
      rfl
    rw [same, grown, List.count_append, List.count_singleton]
    simp only [and_true, beq_iff_eq]
  · rw [addUse, uses_modify_of_ne same, if_neg fun both => same both.2.symm, Nat.add_zero]

/-- Recording a use pays for it. -/
theorem Owing.addUse (owing : Owing m user (value :: owed))
    (present : value.index < m.entries.size) : Owing (m.addUse user value) user owed := by
  intro held other
  have before := owing held other
  rw [count_uses_addUse present, operandsOf_addUse, ← before, List.count_cons]
  by_cases same : user = other
  · simp only [same, true_and, if_true, beq_iff_eq]
    omega
  · simp only [same, false_and, if_false]

/-- **Once all uses have been recorded the module is balanced.** -/
theorem Owing.balanced (owing : Owing m user owed)
    (present : ∀ value ∈ owed, value.index < m.entries.size) :
    Balanced (owed.foldl (fun m value => m.addUse user value) m) := by
  induction owed generalizing m with
  | nil => exact owing_nil_iff.mp owing
  | cons value owed ih =>
    refine ih (owing.addUse (present value List.mem_cons_self)) fun other member => ?_
    rw [size_addUse]
    exact present other (List.mem_cons_of_mem _ member)

/-! ### Filling a slot -/

theorem count_uses_dropUse (m : Module) (user value held user' : ValueId) :
    ((m.dropUse user value).uses held).count user' =
      (m.uses held).count user' - (if user = user' ∧ value = held then 1 else 0) := by
  by_cases same : held = value
  · have shrunk : (m.dropUse user value).uses value = (m.uses value).erase user := by
      rw [uses, dropUse, entry?_modify, if_pos rfl, uses]
      cases m.entry? value <;> rfl
    rw [same, shrunk, List.count_erase]
    simp only [and_true, beq_iff_eq]
  · rw [dropUse, uses_modify_of_ne same, if_neg fun both => same both.2.symm, Nat.sub_zero]

theorem operandsOf_dropUse (m : Module) (user value other : ValueId) :
    (m.dropUse user value).operandsOf other = m.operandsOf other := by
  unfold dropUse
  refine operandsOf_modify ?_ value other
  exact fun _ => rfl

theorem uses_modifyInstruction (m : Module) (id : ValueId) (change : Instruction → Instruction)
    (other : ValueId) : (m.modifyInstruction id change).uses other = m.uses other := by
  refine uses_modify ?_ id other
  rintro ⟨content, name, uses⟩
  cases content <;> rfl

/-- A change of an instruction is a change of its slots. -/
theorem operandsOf_modifyInstruction (m : Module) (id other : ValueId)
    (change : Instruction → Instruction) (slots : List Slot → List Slot)
    (changes : ∀ held, (change held).operands = slots held.operands)
    (empty : m.instruction? id = none → slots [] = []) :
    (m.modifyInstruction id change).operandsOf other =
      if other = id then slots (m.operandsOf id) else m.operandsOf other := by
  rw [operandsOf_eq, modifyInstruction, entry?_modify]
  by_cases same : other = id
  · rw [instruction?, content?] at empty
    rw [if_pos same, if_pos same, operandsOf_eq, same]
    cases found : m.entry? id with
    | none =>
      rw [found] at empty
      exact (empty rfl).symm
    | some entry =>
      rw [found] at empty
      obtain ⟨content, name, uses⟩ := entry
      cases content with
      | instruction held => exact changes held
      | _ => exact (empty rfl).symm
  · rw [if_neg same, if_neg same, operandsOf_eq]

@[simp] theorem size_modifyInstruction (m : Module) (id : ValueId)
    (change : Instruction → Instruction) :
    (m.modifyInstruction id change).entries.size = m.entries.size :=
  size_modify m id _

/-- What a slot held gives its use back. -/
def release (m : Module) (user : ValueId) (slot : Nat) : Module :=
  match m.operand? user slot with
  | some old => m.dropUse user old
  | none => m

/-- Puts a value into a slot without recording its use. -/
def setSlot (m : Module) (user : ValueId) (slot : Nat) (filling : Slot) : Module :=
  m.modifyInstruction user fun instruction =>
    { instruction with operands := instruction.operands.set slot filling }

theorem fillSlot_eq (m : Module) (user : ValueId) (slot : Nat) (filling : Slot) :
    m.fillSlot user slot filling =
      filling.toList.foldl (fun m value => m.addUse user value)
        ((m.release user slot).setSlot user slot filling) := by
  cases filling <;> rfl

theorem operandsOf_release (m : Module) (user : ValueId) (slot : Nat) (other : ValueId) :
    (m.release user slot).operandsOf other = m.operandsOf other := by
  unfold release
  split
  · exact operandsOf_dropUse m user _ other
  · rfl

@[simp] theorem size_release (m : Module) (user : ValueId) (slot : Nat) :
    (m.release user slot).entries.size = m.entries.size := by
  unfold release
  split
  · exact size_modify m _ _
  · rfl

theorem count_uses_release (m : Module) (user : ValueId) (slot : Nat) (held user' : ValueId) :
    ((m.release user slot).uses held).count user' = (m.uses held).count user' -
      (if user = user' ∧ m.operand? user slot = some held then 1 else 0) := by
  unfold release
  cases here : m.operand? user slot with
  | none => simp only [reduceCtorEq, and_false, if_false, Nat.sub_zero]
  | some old =>
    rw [count_uses_dropUse]
    simp only [Option.some.injEq]

theorem operandsOf_setSlot (m : Module) (user : ValueId) (slot : Nat) (filling : Slot)
    (other : ValueId) : (m.setSlot user slot filling).operandsOf other =
      if other = user then (m.operandsOf user).set slot filling else m.operandsOf other := by
  unfold setSlot
  exact operandsOf_modifyInstruction m user other _ (fun operands => operands.set slot filling)
    (fun _ => rfl) fun _ => rfl

@[simp] theorem size_setSlot (m : Module) (user : ValueId) (slot : Nat) (filling : Slot) :
    (m.setSlot user slot filling).entries.size = m.entries.size :=
  size_modifyInstruction m user _

@[simp] theorem size_addUses (m : Module) (user : ValueId) (values : List ValueId) :
    (values.foldl (fun m value => m.addUse user value) m).entries.size = m.entries.size := by
  induction values generalizing m with
  | nil => rfl
  | cons value values ih => rw [List.foldl_cons, ih, size_addUse]

theorem operandsOf_addUses (m : Module) (user : ValueId) (values : List ValueId)
    (other : ValueId) :
    (values.foldl (fun m value => m.addUse user value) m).operandsOf other =
      m.operandsOf other := by
  induction values generalizing m with
  | nil => rfl
  | cons value values ih => rw [List.foldl_cons, ih, operandsOf_addUse]

@[simp] theorem size_fillSlot (m : Module) (user : ValueId) (slot : Nat) (filling : Slot) :
    (m.fillSlot user slot filling).entries.size = m.entries.size := by
  rw [fillSlot_eq, size_addUses, size_setSlot, size_release]

theorem operandsOf_fillSlot (m : Module) (user : ValueId) (slot : Nat) (filling : Slot)
    (other : ValueId) : (m.fillSlot user slot filling).operandsOf other =
      if other = user then (m.operandsOf user).set slot filling else m.operandsOf other := by
  rw [fillSlot_eq, operandsOf_addUses, operandsOf_setSlot, operandsOf_release, operandsOf_release]

/-- A slot that is filled anew owes the use of what fills it, and nothing else. -/
theorem Balanced.owing_setSlot (balanced : Balanced m)
    (inside : slot < (m.operandsOf user).length) (filling : Slot) :
    Owing ((m.release user slot).setSlot user slot filling) user filling.toList := by
  intro held other
  have before := balanced held other
  rw [setSlot, uses_modifyInstruction, count_uses_release, ← setSlot, operandsOf_setSlot,
    operandsOf_release, operandsOf_release]
  by_cases same : user = other
  · have here : m.operand? user slot = (m.operandsOf user)[slot] := by
      rw [operand?, List.getElem?_eq_getElem inside]
      rfl
    have added : filling.toList.count held = if filling = some held then 1 else 0 := by
      cases filling with
      | none => rfl
      | some value => simp only [Option.toList_some, List.count_singleton, beq_iff_eq,
          Option.some.injEq]
    rw [← same] at before ⊢
    rw [if_pos rfl, if_pos rfl, List.count_set inside, ← before, here, added]
    simp only [true_and, beq_iff_eq]
  · rw [if_neg (Ne.symm same), if_neg same, if_neg fun both => same both.1, before]
    rfl

/-- New slots at the end of an instruction owe the uses of what they hold. -/
theorem Balanced.owing_append {held : Instruction} (balanced : Balanced m)
    (found : m.instruction? user = some held) (values : List ValueId) :
    Owing (m.modifyInstruction user fun instruction =>
      { instruction with operands := instruction.operands ++ values.map some }) user values := by
  intro value other
  have before := balanced value other
  have slots := operandsOf_modifyInstruction m user other (fun instruction =>
      { instruction with operands := instruction.operands ++ values.map some })
    (fun operands => operands ++ values.map some) (fun _ => rfl)
    fun none => by rw [found] at none; cases none
  rw [uses_modifyInstruction, slots]
  by_cases same : user = other
  · rw [← same] at before ⊢
    rw [if_pos rfl, if_pos rfl, List.count_append, ← before,
      List.count_map_of_injective values some fun _ _ => Option.some.inj]
  · rw [if_neg (Ne.symm same), if_neg same, before]
    rfl

/-- **Filling a slot keeps a module balanced**, whatever the slot held and whatever else holds the
value that fills it. -/
theorem Balanced.fillSlot (balanced : Balanced m) (inside : slot < (m.operandsOf user).length)
    (filling : Slot) (present : ∀ value, filling = some value → value.index < m.entries.size) :
    Balanced (m.fillSlot user slot filling) := by
  rw [fillSlot_eq]
  refine (balanced.owing_setSlot inside filling).balanced fun value member => ?_
  rw [size_setSlot, size_release]
  exact present value (Option.mem_toList.mp member)

theorem Balanced.clearSlot (balanced : Balanced m) (inside : slot < (m.operandsOf user).length) :
    Balanced (m.fillSlot user slot none) :=
  balanced.fillSlot inside none fun _ filled => (nomatch filled)

/-! ### Demands -/

theorem lt_size_of_requireValue {outcome : Unit} (granted : m.requireValue value = .ok outcome) :
    value.index < m.entries.size := by
  rw [requireValue] at granted
  split at granted
  case isTrue isSome => exact (m.entry?_isSome_iff value).mp isSome
  case isFalse => cases granted

theorem instruction?_of_requireInstruction {held : Instruction}
    (granted : m.requireInstruction user = .ok held) : m.instruction? user = some held := by
  rw [requireInstruction] at granted
  split at granted
  case h_1 found => rw [found, Except.ok.inj granted]
  case h_2 => cases granted

theorem operandsOf_of_instruction? {held : Instruction} (found : m.instruction? user = some held) :
    m.operandsOf user = held.operands := by
  rw [operandsOf, found]
  rfl

theorem lt_size_of_content? {content : Content} (found : m.content? value = some content) :
    value.index < m.entries.size := by
  obtain ⟨entry, here, _⟩ := Option.map_eq_some_iff.mp found
  refine (m.entry?_isSome_iff value).mp ?_
  rw [here]
  rfl

theorem content?_of_block? {held : Block} (found : m.block? value = some held) :
    m.content? value = some (.block held) := by
  rw [block?] at found
  split at found
  case h_1 here => rw [here, Option.some.inj found]
  case h_2 => cases found

theorem lt_size_of_requireBlock {held : Block} (granted : m.requireBlock value = .ok held) :
    value.index < m.entries.size := by
  rw [requireBlock] at granted
  split at granted
  case h_1 found => exact lt_size_of_content? (content?_of_block? found)
  case h_2 => cases granted

/-! ### Operations on slots -/

theorem Balanced.replaceOperand (balanced : Balanced m)
    (done : m.replaceOperand user slot filling = .ok next) : Balanced next := by
  obtain ⟨held, granted, rest⟩ := ok_of_bind done
  have slots := operandsOf_of_instruction? (instruction?_of_requireInstruction granted)
  split at rest
  case isTrue inside =>
    rw [← slots] at inside
    cases filling with
    | none =>
      rw [← Except.ok.inj rest]
      exact balanced.clearSlot inside
    | some value =>
      obtain ⟨_, checked, result⟩ := @ok_of_bind _ _ _ (m.requireValue value) _ _ rest
      rw [← Except.ok.inj result]
      refine balanced.fillSlot inside (some value) fun other filled => ?_
      rw [← Option.some.inj filled]
      exact lt_size_of_requireValue checked
  case isFalse => cases rest

/-- **Pointing the uses of a value at another keeps a module balanced**, also when the two are the
same or an instruction uses itself. -/
theorem Balanced.redirectUses (balanced : Balanced m) (old : ValueId) {new : ValueId}
    (present : new.index < m.entries.size) :
    Balanced (m.redirectUses old new) ∧ (m.redirectUses old new).entries.size = m.entries.size := by
  have slotStep : ∀ (user : ValueId) (changed : Module) (slot : Nat),
      Balanced changed ∧ changed.entries.size = m.entries.size →
      Balanced (if changed.operand? user slot = some old then
          changed.fillSlot user slot (some new) else changed) ∧
        (if changed.operand? user slot = some old then
          changed.fillSlot user slot (some new) else changed).entries.size = m.entries.size := by
    rintro user changed slot ⟨balanced, size⟩
    split
    case isTrue held =>
      have inside : slot < (changed.operandsOf user).length := by
        rw [operand?, Option.join_eq_some_iff] at held
        exact (List.getElem?_eq_some_iff.mp held).1
      refine ⟨balanced.fillSlot inside (some new) fun value filled => ?_, by rw [size_fillSlot, size]⟩
      rw [← Option.some.inj filled, size]
      exact present
    case isFalse => exact ⟨balanced, size⟩
  have userStep : ∀ (changed : Module) (user : ValueId),
      Balanced changed ∧ changed.entries.size = m.entries.size →
      Balanced (changed.redirect user old new) ∧
        (changed.redirect user old new).entries.size = m.entries.size :=
    fun changed user start => foldl_preserves (slotStep user) _ start
  exact foldl_preserves userStep _ ⟨balanced, rfl⟩

theorem Balanced.replaceUses {old new : ValueId} (balanced : Balanced m)
    (done : m.replaceUses old new = .ok next) : Balanced next := by
  obtain ⟨_, _, rest⟩ := ok_of_bind done
  obtain ⟨_, granted, result⟩ := ok_of_bind rest
  rw [← Except.ok.inj result]
  exact (balanced.redirectUses old (lt_size_of_requireValue granted)).1

theorem Balanced.addIncoming {phi block : ValueId} (balanced : Balanced m)
    (done : m.addIncoming phi value block = .ok next) : Balanced next := by
  obtain ⟨held, granted, rest⟩ := ok_of_bind done
  split at rest
  case isTrue isPhi =>
    obtain ⟨_, valueGranted, rest⟩ := ok_of_bind rest
    obtain ⟨_, blockGranted, result⟩ := ok_of_bind rest
    rw [← Except.ok.inj result]
    have owing := balanced.owing_append (instruction?_of_requireInstruction granted) [value, block]
    refine owing.balanced fun other member => ?_
    rw [size_modifyInstruction]
    rw [List.mem_cons, List.mem_singleton] at member
    rcases member with rfl | rfl
    · exact lt_size_of_requireValue valueGranted
    · exact lt_size_of_requireBlock blockGranted
  case isFalse => cases rest

theorem length_pairUp (slots : List Slot) :
    (Instruction.pairUp slots).length = slots.length / 2 := by
  induction slots using Instruction.pairUp.induct with
  | case1 value block rest ih =>
    rw [Instruction.pairUp, List.length_cons, ih, List.length_cons, List.length_cons]
    omega
  | case2 slots short =>
    rw [Instruction.pairUp]
    · match slots, short with
      | [], _ => rfl
      | [_], _ => exact (Nat.div_eq_of_lt (Nat.lt_succ_self 1)).symm
      | value :: block :: rest, short => exact absurd rfl (short value block rest)
    · exact short

theorem length_incoming_le (held : Instruction) :
    2 * held.incoming.length ≤ held.operands.length := by
  rw [Instruction.incoming]
  split
  · rw [length_pairUp]
    omega
  · exact Nat.zero_le _

/-- Slots without a value can be taken out. -/
theorem Balanced.dropEmpty (balanced : Balanced m) (slots : List Slot → List Slot)
    {change : Instruction → Instruction}
    (changes : ∀ held, (change held).operands = slots held.operands) (empty : slots [] = [])
    (keeps : ∀ value, (slots (m.operandsOf user)).count (some value) =
      (m.operandsOf user).count (some value)) :
    Balanced (m.modifyInstruction user change) := by
  intro value other
  rw [uses_modifyInstruction, operandsOf_modifyInstruction m user other change slots changes
    fun _ => empty, balanced value other]
  split
  case isTrue same => rw [same, keeps]
  case isFalse => rfl

/-- What a list holds between two places is lost when they are taken out. -/
theorem count_take_append_drop (slots : List Slot) (position : Nat) (value : ValueId)
    (first : slots[position]?.join = none) (second : slots[position + 1]?.join = none) :
    (slots.take position ++ slots.drop (position + 2)).count (some value) =
      slots.count (some value) := by
  have absent : ((slots.drop position).take 2).count (some value) = 0 := by
    refine List.count_eq_zero.mpr fun member => ?_
    obtain ⟨index, here⟩ := List.mem_iff_getElem?.mp member
    rw [List.getElem?_take, List.getElem?_drop] at here
    split at here
    case isTrue less =>
      match index, less with
      | 0, _ => rw [Nat.add_zero] at here; rw [here] at first; cases first
      | 1, _ => rw [here] at second; cases second
    case isFalse => cases here
  have whole := congrArg (List.count (some value)) (List.take_append_drop position slots)
  have rest := congrArg (List.count (some value)) (List.take_append_drop 2 (slots.drop position))
  rw [List.count_append] at whole rest
  rw [List.count_append, ← whole, ← rest, absent, List.drop_drop, Nat.zero_add]

theorem Balanced.removeIncoming {phi : ValueId} {index : Nat} (balanced : Balanced m)
    (done : m.removeIncoming phi index = .ok next) : Balanced next := by
  obtain ⟨held, granted, rest⟩ := ok_of_bind done
  have slots := operandsOf_of_instruction? (instruction?_of_requireInstruction granted)
  split at rest
  case isTrue inside =>
    have bound := length_incoming_le held
    rw [← slots] at bound
    rw [← Except.ok.inj rest]
    have first : 2 * index < (m.operandsOf phi).length := by omega
    have size : ((m.fillSlot phi (2 * index) none).operandsOf phi).length =
        (m.operandsOf phi).length := by
      rw [operandsOf_fillSlot, if_pos rfl, List.length_set]
    have second : 2 * index + 1 < ((m.fillSlot phi (2 * index) none).operandsOf phi).length := by
      omega
    refine ((balanced.clearSlot first).clearSlot second).dropEmpty (fun operands =>
      operands.take (2 * index) ++ operands.drop (2 * index + 2)) (fun _ => rfl) (by simp) fun value => ?_
    apply count_take_append_drop
    · rw [operandsOf_fillSlot, if_pos rfl, operandsOf_fillSlot, if_pos rfl,
        List.getElem?_set_ne (by omega), List.getElem?_set_self (by omega)]
      rfl
    · rw [operandsOf_fillSlot, if_pos rfl, operandsOf_fillSlot, if_pos rfl,
        List.getElem?_set_self (by rw [List.length_set]; omega)]
      rfl
  case isFalse => cases rest

theorem Balanced.emptySlots (balanced : Balanced m) (instruction : ValueId) :
    Balanced (m.emptySlots instruction) := by
  have step : ∀ slots : List Nat, (∀ slot ∈ slots, slot < (m.operandsOf instruction).length) →
      Balanced (slots.foldl (fun m slot => m.fillSlot instruction slot none) m) := by
    intro slots
    induction slots generalizing m with
    | nil => exact fun _ => balanced
    | cons slot slots ih =>
      intro inside
      refine ih (balanced.clearSlot (inside slot List.mem_cons_self)) fun other member => ?_
      rw [operandsOf_fillSlot, if_pos rfl, List.length_set]
      exact inside other (List.mem_cons_of_mem _ member)
  exact step _ fun slot member => List.mem_range.mp member

/-- An instruction leaves its block. -/
def unlist (m : Module) (block instruction : ValueId) : Module :=
  (m.modifyBlock block fun content =>
    { content with instructions := content.instructions.filter (· ≠ instruction) }
  ).modifyInstruction instruction fun content => { content with block := none }

/-- An instruction leaves its block, with nothing left in its slots. -/
def withdraw (m : Module) (block instruction : ValueId) : Module :=
  (m.emptySlots instruction).unlist block instruction

/-- An instruction that has been removed was in a block, and it was not used or its uses have been
pointed at the replacement. -/
theorem ok_of_remove {instruction : ValueId} {replacement : Option ValueId}
    (done : m.remove instruction replacement = .ok next) :
    ∃ held block redirected, m.instruction? instruction = some held ∧ held.block = some block ∧
      next = withdraw redirected block instruction ∧
      (m.uses instruction = [] ∧ redirected = m ∨
        ∃ new, m.uses instruction ≠ [] ∧ replacement = some new ∧ new.index < m.entries.size ∧
          redirected = m.redirectUses instruction new) := by
  obtain ⟨held, granted, rest⟩ := ok_of_bind done
  have found := instruction?_of_requireInstruction granted
  split at rest
  case h_1 => cases rest
  case h_2 block attached =>
    dsimp only at rest
    split at rest
    case isTrue unused =>
      exact ⟨held, block, m, found, attached, (Except.ok.inj rest).symm,
        .inl ⟨List.eq_nil_of_length_eq_zero unused, rfl⟩⟩
    case isFalse used =>
      cases replacement with
      | none => cases rest
      | some new =>
        obtain ⟨_, present, result⟩ := ok_of_bind rest
        exact ⟨held, block, _, found, attached, (Except.ok.inj result).symm,
          .inr ⟨new, fun unused => used (congrArg List.length unused), rfl,
            lt_size_of_requireValue present, rfl⟩⟩

theorem Alike.withdrawn (m : Module) (block instruction : ValueId) :
    Alike (m.emptySlots instruction) (m.withdraw block instruction) :=
  (Alike.modifyBlock _ block _).trans (Alike.modifyInstruction _ _ fun _ => rfl)

theorem Balanced.remove {instruction : ValueId} {replacement : Option ValueId}
    (balanced : Balanced m) (done : m.remove instruction replacement = .ok next) :
    Balanced next := by
  obtain ⟨_, block, redirected, _, _, rfl, unused | ⟨new, _, _, present, same⟩⟩ := ok_of_remove done
  · rw [unused.2]
    exact (balanced.emptySlots instruction).alike (.withdrawn m block instruction)
  · rw [same]
    exact ((balanced.redirectUses instruction present).1.emptySlots instruction).alike
      (.withdrawn _ block instruction)

/-! ### Operations that add values -/

theorem Owing.alike (owing : Owing m user owed) (alike : Alike m next) :
    Owing next user owed := by
  intro value other
  rw [alike.uses, alike.operandsOf]
  exact owing value other

/-- A new instruction owes the uses of all that its slots hold. -/
theorem Balanced.owing_push (balanced : Balanced m) (held : Instruction) (name : String) :
    Owing (m.push (.instruction held) name).2 ⟨m.entries.size⟩
      (held.operands.filterMap fun slot => slot) := by
  intro value other
  have before := balanced value other
  rw [uses_push, operandsOf_push, List.count_filterMap, before]
  by_cases same : other = ⟨m.entries.size⟩
  · have fresh : m.entries.size ≤ other.index :=
      Nat.le_of_eq (congrArg ValueId.index same).symm
    rw [if_pos same, if_pos same.symm, operandsOf_of_fresh fresh, List.count_nil, Nat.zero_add]
    rfl
  · rw [if_neg same, if_neg (Ne.symm same)]
    rfl

theorem Balanced.insertAt (balanced : Balanced m) {operands : List Slot}
    (present : ∀ value ∈ operands.filterMap (fun slot => slot), value.index < m.entries.size)
    (block : ValueId) (position : Nat) (opcode : Opcode) (name : String) :
    Balanced (m.insertAt block position opcode operands name).2 := by
  have owing := balanced.owing_push ⟨some block, opcode, operands⟩
    (if opcode.isValue then name else "")
  refine (owing.alike (Alike.modifyBlock _ block _)).balanced fun value member => ?_
  rw [modifyBlock, size_modify, size_push]
  exact Nat.lt_succ_of_lt (present value member)

theorem Balanced.insert {cursor : Cursor} {form : Form} {name : String} {insertion : Insertion}
    (balanced : Balanced m) (done : cursor.insert m form name = .ok insertion) :
    Balanced insertion.outcome := by
  rw [Cursor.insert] at done
  split at done
  case h_1 => cases done
  case h_2 point _ =>
    obtain ⟨⟨block, position⟩, _, rest⟩ := ok_of_bind done
    obtain ⟨_, checked, result⟩ := ok_of_bind rest
    obtain ⟨_, values, _⟩ := ok_of_bind checked
    rw [← Except.ok.inj result]
    exact balanced.insertAt (fun value member =>
      lt_size_of_requireValue (ok_of_forM values value member)) block position form.opcode name

theorem Alike.addGlobal {storage : Ty} {initialiser : Initialiser} {name : String}
    {added : ValueId × Module} (done : m.addGlobal storage initialiser name = .ok added) :
    Alike m added.2 := by
  obtain ⟨_, _, result⟩ := ok_of_bind done
  rw [← Except.ok.inj result]
  exact (Alike.push m name rfl).trans ⟨fun _ => rfl, fun _ => rfl⟩

theorem Alike.addLiteral (m : Module) (literal : Literal) : Alike m (m.addLiteral literal).2 :=
  Alike.push m "" rfl

theorem Alike.pushParameters (m : Module) (function : ValueId) (position : Nat) (types : List Ty) :
    Alike m (m.pushParameters function position types).2 := by
  induction types generalizing m position with
  | nil => exact refl m
  | cons type types ih =>
    exact (Alike.push m "" rfl).trans (ih (m.push (.parameter ⟨function, position, type⟩) "").2
      (position + 1))

theorem Alike.addFunction {signature : Signature} {name : String} {added : ValueId × Module}
    (done : m.addFunction signature name = .ok added) : Alike m added.2 := by
  rw [Module.addFunction] at done
  split at done
  case isTrue => cases done
  case isFalse =>
    rw [← Except.ok.inj done]
    have pushed : Alike m (m.push (.function ⟨signature, [], []⟩) name).2 := Alike.push m name rfl
    have complete := pushed.trans
      (Alike.pushParameters _ ⟨m.entries.size⟩ 0 signature.parameters)
    have linked := complete.trans (Alike.modifyFunction _ ⟨m.entries.size⟩ fun function =>
      { function with parameters := ((m.push (.function ⟨signature, [], []⟩) name).2.pushParameters
        ⟨m.entries.size⟩ 0 signature.parameters).1 })
    exact linked.trans ⟨fun _ => rfl, fun _ => rfl⟩

theorem Alike.addBlock {function : ValueId} {place : BlockPlace} {name : String}
    {added : ValueId × Module} (done : m.addBlock function place name = .ok added) :
    Alike m added.2 := by
  obtain ⟨_, _, result⟩ := ok_of_bind done
  rw [← Except.ok.inj result]
  exact (Alike.push m name rfl).trans (Alike.modifyFunction _ function _)

theorem Alike.setInitialiser {target : ValueId} {initialiser : Initialiser}
    (done : m.setInitialiser target initialiser = .ok next) : Alike m next := by
  obtain ⟨_, _, rest⟩ := ok_of_bind done
  obtain ⟨_, _, result⟩ := ok_of_bind rest
  rw [← Except.ok.inj result]
  exact Alike.modifyGlobal m target _

theorem Alike.rename (m : Module) (id : ValueId) (name : String) : Alike m (m.rename id name) := by
  refine Alike.modify m id ?_ ?_ <;>
  · intro entry
    split <;> rfl

theorem Alike.resolveNames (m : Module) : Alike m m.resolveNames :=
  foldl_preserves (fun _ _ start => start.trans (Alike.modify _ _ (fun _ => rfl) fun _ => rfl)) _
    (refl m)

end Module

/-- **Every operation keeps a module balanced.** -/
theorem Operation.balanced {m next : Module} {operation : Operation} (balanced : Module.Balanced m)
    (done : operation.apply m = .ok next) : Module.Balanced next := by
  cases operation with
  | addLiteral literal =>
    rw [← Except.ok.inj done]
    exact balanced.alike (Module.Alike.addLiteral m literal)
  | addGlobal storage initialiser name =>
    obtain ⟨added, granted, rfl⟩ := ok_of_map done
    exact balanced.alike (Module.Alike.addGlobal granted)
  | addText text terminated name =>
    obtain ⟨added, granted, rfl⟩ := ok_of_map done
    exact balanced.alike ((Module.Alike.addLiteral m _).trans (Module.Alike.addGlobal granted))
  | setInitialiser target initialiser => exact balanced.alike (Module.Alike.setInitialiser done)
  | addFunction signature name =>
    obtain ⟨added, granted, rfl⟩ := ok_of_map done
    exact balanced.alike (Module.Alike.addFunction granted)
  | addBlock function place name =>
    obtain ⟨added, granted, rfl⟩ := ok_of_map done
    exact balanced.alike (Module.Alike.addBlock granted)
  | insert cursor form name =>
    obtain ⟨insertion, granted, rfl⟩ := ok_of_map done
    exact balanced.insert granted
  | replaceOperand instruction slot filling => exact balanced.replaceOperand done
  | replaceUses old new => exact balanced.replaceUses done
  | addIncoming phi value block => exact balanced.addIncoming done
  | removeIncoming phi index => exact balanced.removeIncoming done
  | remove instruction replacement => exact balanced.remove done
  | rename id name =>
    rw [← Except.ok.inj done]
    exact balanced.alike (Module.Alike.rename m id name)
  | resolveNames =>
    rw [← Except.ok.inj done]
    exact balanced.alike (Module.Alike.resolveNames m)

namespace Module

theorem balanced_empty (name : String) : Balanced (Module.empty name) := by
  intro value user
  rw [uses_of_fresh (Nat.zero_le _), operandsOf_of_fresh (Nat.zero_le _)]
  rfl

/-- Every module that can be built is balanced. -/
theorem Built.balanced {m : Module} (built : Built m) : Balanced m := by
  induction built with
  | empty name => exact balanced_empty name
  | step operation _ done ih => exact Operation.balanced ih done

/-- **In every module that can be built, uses and slots agree**: each value, for each instruction in
a block or out of one, has as many recorded uses as the instruction has slots that hold it. -/
theorem Built.count_uses {m : Module} (built : Built m) (value instruction : ValueId) :
    (m.uses value).count instruction = (m.operandsOf instruction).count (some value) :=
  built.balanced value instruction

/-- A function that adds its argument to itself. -/
def doubling : List Operation :=
  [.addFunction ⟨[.int 32], .int 32, false⟩ "double", .addBlock ⟨0⟩ .finish "entry",
    .insert ⟨some (.finish ⟨2⟩)⟩ (.binary .add ⟨1⟩ ⟨1⟩) "twice"]

/-- Both slots of the addition are recorded at the argument. -/
theorem count_uses_doubling : ∃ m, doubling.foldlM Operation.apply (Module.empty "m") = .ok m ∧
    (m.uses ⟨1⟩).count ⟨3⟩ = (m.operandsOf ⟨3⟩).count (some ⟨1⟩) ∧ (m.uses ⟨1⟩).count ⟨3⟩ = 2 :=
  have done : doubling.foldlM Operation.apply (Module.empty "m") = .ok _ := rfl
  ⟨_, done, Built.count_uses ((Built.empty "m").run done) ⟨1⟩ ⟨3⟩, rfl⟩

end Module

end SsaAmd64
