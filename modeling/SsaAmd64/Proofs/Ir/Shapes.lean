/-
**Slots by kind.**

An instruction keeps the kind it was built with, and has as many slots as its kind asks for: slots
are filled and emptied, but only the pairs of a phi come and go. Most operations change nothing else
about a value.

* `Opcode.Admits`: how many slots an instruction of a kind has;
* `Module.Rewired`: two modules that differ in slots, uses and names only;
* `Module.Built.shaped`: in every module that can be built, each instruction has the slots of its
  kind.
-/

import SsaAmd64.Proofs.Ir.DefUse
import SsaAmd64.Proofs.Ir.Types

namespace SsaAmd64

/-- How many slots an instruction of a kind has. -/
def Opcode.Admits (opcode : Opcode) (count : Nat) : Prop :=
  match opcode with
  | .alloc _ | .unreachable => count = 0
  | .load | .convert _ _ | .br | .ret => count = 1
  | .store | .binary _ | .compare _ => count = 2
  | .condbr => count = 3
  | .gep | .call => 1 ≤ count
  | .phi _ => 2 ∣ count

/-- An instruction has the slots of its kind. -/
def Instruction.Fits (held : Instruction) : Prop :=
  held.opcode.Admits held.operands.length

theorem Form.fits (form : Form) (block : Option ValueId) :
    Instruction.Fits ⟨block, form.opcode, form.operands⟩ := by
  cases form <;> simp [Instruction.Fits, Form.opcode, Form.operands, Opcode.Admits]

/-! ### Changes of slots -/

/-- What a value turns into when slots are changed: the slots of an instruction may be others, as
long as there are as many as its kind asks for. -/
inductive Content.Rewired : Content → Content → Prop
  | same (content : Content) : Rewired content content
  | slots {held : Instruction} {slots : List Slot}
      (fits : held.Fits → Instruction.Fits { held with operands := slots }) :
      Rewired (.instruction held) (.instruction { held with operands := slots })

theorem Content.Rewired.trans {first second third : Content} (one : first.Rewired second)
    (other : second.Rewired third) : first.Rewired third := by
  cases one with
  | same => exact other
  | slots fits =>
    cases other with
    | same => exact .slots fits
    | slots fits' => exact .slots fun start => fits' (fits start)

namespace Module

variable {m next : Module} {id phi block value : ValueId} {change : Entry → Entry}

/-- **Two modules that differ in slots, uses and names only.** -/
structure Rewired (m next : Module) : Prop where
  functions : next.functions = m.functions
  globals : next.globals = m.globals
  contents : ∀ id, Option.Rel Content.Rewired (m.content? id) (next.content? id)

namespace Rewired

theorem refl (m : Module) : Rewired m m := by
  refine ⟨rfl, rfl, fun id => ?_⟩
  cases m.content? id with
  | none => exact .none
  | some content => exact .some (.same content)

theorem trans {first second third : Module} (one : Rewired first second)
    (other : Rewired second third) : Rewired first third := by
  refine ⟨other.functions.trans one.functions, other.globals.trans one.globals, fun id => ?_⟩
  have before := one.contents id
  have after := other.contents id
  revert before after
  cases first.content? id <;> cases second.content? id <;> cases third.content? id <;>
    intro before after <;> cases before <;> cases after
  · exact .none
  · exact .some (Content.Rewired.trans ‹_› ‹_›)

theorem modify (m : Module) (id : ValueId)
    (keeps : ∀ entry, m.entry? id = some entry → entry.content.Rewired (change entry).content) :
    Rewired m (m.modify id change) := by
  refine ⟨rfl, rfl, fun other => ?_⟩
  rw [content?, content?, entry?_modify]
  split
  case isTrue same =>
    subst same
    cases found : m.entry? other with
    | none => exact .none
    | some entry => exact .some (keeps entry found)
  case isFalse =>
    cases m.entry? other with
    | none => exact .none
    | some entry => exact .some (.same entry.content)

/-- A change of uses or names. -/
theorem of_content (m : Module) (id : ValueId)
    (keeps : ∀ entry, (change entry).content = entry.content) : Rewired m (m.modify id change) := by
  refine modify m id fun entry _ => ?_
  rw [keeps]
  exact .same entry.content

/-- A change of the slots of one instruction. -/
theorem modifyInstruction (m : Module) (id : ValueId) (slots : List Slot → List Slot)
    (fits : ∀ held, m.instruction? id = some held → held.Fits →
      Instruction.Fits { held with operands := slots held.operands }) :
    Rewired m (m.modifyInstruction id fun held => { held with operands := slots held.operands }) := by
  refine modify m id ?_
  rintro ⟨content, name, uses⟩ found
  cases content with
  | instruction held =>
    refine .slots (fits held ?_)
    rw [instruction?, content?, found]
    rfl
  | _ => exact .same _

theorem addUse (m : Module) (user value : ValueId) : Rewired m (m.addUse user value) :=
  of_content m value fun _ => rfl

theorem dropUse (m : Module) (user value : ValueId) : Rewired m (m.dropUse user value) :=
  of_content m value fun _ => rfl

theorem foldl {α : Type} {step : Module → α → Module}
    (keeps : ∀ m element, Rewired m (step m element)) (elements : List α) (m : Module) :
    Rewired m (elements.foldl step m) :=
  foldl_preserves (fun _ element start => start.trans (keeps _ element)) elements (refl m)

theorem fillSlot (m : Module) (user : ValueId) (slot : Nat) (filling : Slot) :
    Rewired m (m.fillSlot user slot filling) := by
  rw [fillSlot_eq]
  have released : Rewired m (m.release user slot) := by
    unfold release
    split
    · exact dropUse m user _
    · exact refl m
  have filled : Rewired (m.release user slot) ((m.release user slot).setSlot user slot filling) := by
    refine modifyInstruction _ user (fun operands => operands.set slot filling) fun held _ start => ?_
    rw [Instruction.Fits, List.length_set]
    exact start
  exact (released.trans filled).trans (foldl (fun m value => addUse m user value) _ _)

theorem redirectUses (m : Module) (old new : ValueId) : Rewired m (m.redirectUses old new) := by
  refine foldl (fun m user => foldl (fun m slot => ?_) _ m) _ m
  split
  · exact fillSlot m user slot (some new)
  · exact refl m

theorem emptySlots (m : Module) (instruction : ValueId) : Rewired m (m.emptySlots instruction) :=
  foldl (fun m slot => fillSlot m instruction slot none) _ m

theorem replaceOperand {instruction : ValueId} {slot : Nat} {filling : Slot}
    (done : m.replaceOperand instruction slot filling = .ok next) : Rewired m next := by
  obtain ⟨held, _, rest⟩ := ok_of_bind done
  split at rest
  case isTrue =>
    obtain rfl : m.fillSlot instruction slot filling = next := by
      cases filling with
      | none => exact Except.ok.inj rest
      | some value =>
        obtain ⟨_, _, result⟩ := ok_of_bind rest
        exact Except.ok.inj result
    exact fillSlot m instruction slot filling
  case isFalse => cases rest

theorem replaceUses {old new : ValueId} (done : m.replaceUses old new = .ok next) :
    Rewired m next := by
  obtain ⟨_, _, rest⟩ := ok_of_bind done
  obtain ⟨_, _, result⟩ := ok_of_bind rest
  rw [← Except.ok.inj result]
  exact redirectUses m old new

/-- The slots of a phi come in pairs. -/
theorem ofPhi {held : Instruction} (found : m.instruction? phi = some held)
    (isPhi : held.opcode.isPhi = true) (slots : List Slot → List Slot)
    (even : ∀ operands, 2 ∣ operands.length → 2 ∣ (slots operands).length) :
    Rewired m (m.modifyInstruction phi fun held =>
      { held with operands := slots held.operands }) := by
  refine modifyInstruction m phi slots fun other same start => ?_
  rw [found] at same
  obtain rfl := Option.some.inj same
  cases kind : held.opcode with
  | phi type =>
    simp only [Instruction.Fits, kind, Opcode.Admits] at start ⊢
    exact even _ start
  | _ => simp [kind, Opcode.isPhi] at isPhi

theorem addIncoming (done : m.addIncoming phi value block = .ok next) : Rewired m next := by
  obtain ⟨held, granted, rest⟩ := ok_of_bind done
  split at rest
  case isTrue isPhi =>
    obtain ⟨_, _, rest⟩ := ok_of_bind rest
    obtain ⟨_, _, result⟩ := ok_of_bind rest
    rw [← Except.ok.inj result]
    have extended := ofPhi (instruction?_of_requireInstruction granted) isPhi
      (fun operands => operands ++ [some value, some block]) fun operands even => by
        rw [List.length_append]
        exact (Nat.dvd_add_iff_left (Nat.dvd_refl 2)).mp even
    exact (extended.trans (addUse _ phi value)).trans (addUse _ phi block)
  case isFalse => cases rest

/-- An instruction is of the same kind after a change of slots. -/
theorem instruction? {held : Instruction} (rewired : Rewired m next)
    (found : m.instruction? id = some held) :
    ∃ slots, next.instruction? id = some { held with operands := slots } ∧
      (held.Fits → Instruction.Fits { held with operands := slots }) := by
  have related := rewired.contents id
  rw [content?_of_instruction? found] at related
  generalize after : next.content? id = content at related
  obtain related | _ := related
  rw [Module.instruction?, after]
  cases related with
  | same => exact ⟨_, rfl, fun fits => fits⟩
  | slots fits => exact ⟨_, rfl, fits⟩

theorem removeIncoming {index : Nat} (done : m.removeIncoming phi index = .ok next) :
    Rewired m next := by
  obtain ⟨held, granted, rest⟩ := ok_of_bind done
  split at rest
  case isTrue inside =>
    rw [← Except.ok.inj rest]
    have isPhi : held.opcode.isPhi = true := by
      refine of_not_not fun other => ?_
      rw [Instruction.incoming, if_neg other] at inside
      exact Nat.not_lt_zero index inside
    have emptied := (fillSlot m phi (2 * index) none).trans (fillSlot _ phi (2 * index + 1) none)
    obtain ⟨slots, found, _⟩ := emptied.instruction? (instruction?_of_requireInstruction granted)
    refine emptied.trans (ofPhi found isPhi (fun operands =>
      operands.take (2 * index) ++ operands.drop (2 * index + 2)) fun operands even => ?_)
    rw [List.length_append, List.length_take, List.length_drop]
    omega
  case isFalse => cases rest

theorem rename (m : Module) (id : ValueId) (name : String) : Rewired m (m.rename id name) := by
  refine of_content m id fun entry => ?_
  split <;> rfl

theorem resolveNames (m : Module) : Rewired m m.resolveNames :=
  foldl_preserves (fun _ _ start => start.trans (of_content _ _ fun _ => rfl)) _ (refl m)

end Rewired

/-! ### Slots of all instructions -/

/-- **Each instruction has the slots of its kind.** -/
def Shaped (m : Module) : Prop :=
  ∀ id held, m.instruction? id = some held → held.Fits

theorem shaped_empty (name : String) : Shaped (Module.empty name) := by
  intro id held found
  cases lt_size_of_content? (content?_of_instruction? found)

theorem Shaped.rewired (shaped : Shaped m) (rewired : Rewired m next) : Shaped next := by
  intro id held found
  have related := rewired.contents id
  rw [content?_of_instruction? found] at related
  cases before : m.content? id with
  | none =>
    rw [before] at related
    cases related
  | some content =>
    rw [before] at related
    obtain related | _ := related
    cases related with
    | same => exact shaped id _ (by rw [instruction?, before])
    | slots fits => exact fits (shaped id _ (by rw [instruction?, before]))

/-- What is an instruction after a change of one value was one with the slots of its kind. -/
theorem Shaped.modify (shaped : Shaped m) (id : ValueId)
    (keeps : ∀ entry held, (change entry).content = .instruction held →
      ∃ old, entry.content = .instruction old ∧ (old.Fits → held.Fits)) :
    Shaped (m.modify id change) := by
  intro other held found
  have content := content?_of_instruction? found
  rw [content?, entry?_modify] at content
  split at content
  case isTrue =>
    rw [Option.map_map] at content
    obtain ⟨entry, before, after⟩ := Option.map_eq_some_iff.mp content
    obtain ⟨old, same, fits⟩ := keeps entry held after
    refine fits (shaped other old ?_)
    rw [instruction?, content?, before, Option.map_some, same]
  case isFalse =>
    refine shaped other held ?_
    rw [instruction?, content?, content]

theorem Shaped.modifyFunction (shaped : Shaped m) (id : ValueId) (change : Function → Function) :
    Shaped (m.modifyFunction id change) := by
  refine shaped.modify id ?_
  rintro ⟨content, name, uses⟩ held same
  cases content with
  | function _ => cases same
  | _ => exact ⟨held, same, fun fits => fits⟩

theorem Shaped.modifyGlobal (shaped : Shaped m) (id : ValueId) (change : Global → Global) :
    Shaped (m.modifyGlobal id change) := by
  refine shaped.modify id ?_
  rintro ⟨content, name, uses⟩ held same
  cases content with
  | global _ => cases same
  | _ => exact ⟨held, same, fun fits => fits⟩

theorem Shaped.modifyBlock (shaped : Shaped m) (id : ValueId) (change : Block → Block) :
    Shaped (m.modifyBlock id change) := by
  refine shaped.modify id ?_
  rintro ⟨content, name, uses⟩ held same
  cases content with
  | block _ => cases same
  | _ => exact ⟨held, same, fun fits => fits⟩

theorem Shaped.detach (shaped : Shaped m) (id : ValueId) :
    Shaped (m.modifyInstruction id fun held => { held with block := none }) := by
  refine shaped.modify id ?_
  rintro ⟨content, name, uses⟩ held same
  cases content with
  | instruction old =>
    obtain rfl := Content.instruction.inj same
    exact ⟨old, rfl, fun fits => fits⟩
  | _ => cases same

theorem Shaped.push (shaped : Shaped m) (content : Content) (name : String)
    (fits : ∀ held, content = .instruction held → held.Fits) :
    Shaped (m.push content name).2 := by
  intro id held found
  have same := content?_of_instruction? found
  rw [content?, entry?_push] at same
  split at same
  case isTrue => exact fits held (Option.some.inj same)
  case isFalse =>
    refine shaped id held ?_
    rw [instruction?, content?, same]

theorem Shaped.lists (shaped : Shaped m) (functions globals : List ValueId) :
    Shaped { m with functions, globals } :=
  shaped

theorem Shaped.addGlobal (shaped : Shaped m) {storage : Ty} {initialiser : Initialiser}
    {name : String} {added : ValueId × Module}
    (done : m.addGlobal storage initialiser name = .ok added) : Shaped added.2 := by
  obtain ⟨_, _, result⟩ := ok_of_bind done
  rw [← Except.ok.inj result]
  exact (shaped.push (.global ⟨storage, initialiser⟩) name nofun).lists _ _

theorem Shaped.setInitialiser (shaped : Shaped m) {target : ValueId} {initialiser : Initialiser}
    (done : m.setInitialiser target initialiser = .ok next) : Shaped next := by
  obtain ⟨_, _, rest⟩ := ok_of_bind done
  obtain ⟨_, _, result⟩ := ok_of_bind rest
  rw [← Except.ok.inj result]
  exact shaped.modifyGlobal target _

theorem Shaped.pushParameters (shaped : Shaped m) (function : ValueId) (position : Nat)
    (types : List Ty) : Shaped (m.pushParameters function position types).2 := by
  induction types generalizing m position with
  | nil => exact shaped
  | cons type types ih =>
    exact ih (shaped.push (.parameter ⟨function, position, type⟩) "" nofun) (position + 1)

theorem Shaped.addFunction (shaped : Shaped m) {signature : Signature} {name : String}
    {added : ValueId × Module} (done : m.addFunction signature name = .ok added) :
    Shaped added.2 := by
  rw [Module.addFunction] at done
  split at done
  case isTrue => cases done
  case isFalse =>
    rw [← Except.ok.inj done]
    have pushed := shaped.push (.function ⟨signature, [], []⟩) name fun _ same => by cases same
    have complete := pushed.pushParameters ⟨m.entries.size⟩ 0 signature.parameters
    exact (complete.modifyFunction ⟨m.entries.size⟩ _).lists _ _

theorem Shaped.addBlock (shaped : Shaped m) {function : ValueId} {place : BlockPlace}
    {name : String} {added : ValueId × Module}
    (done : m.addBlock function place name = .ok added) : Shaped added.2 := by
  obtain ⟨_, _, result⟩ := ok_of_bind done
  rw [← Except.ok.inj result]
  exact (shaped.push (.block ⟨function, []⟩) name nofun).modifyFunction function _

theorem Shaped.insert (shaped : Shaped m) {cursor : Cursor} {form : Form} {name : String}
    {insertion : Insertion} (done : cursor.insert m form name = .ok insertion) :
    Shaped insertion.outcome := by
  rw [Cursor.insert] at done
  split at done
  case h_1 => cases done
  case h_2 =>
    obtain ⟨⟨block, position⟩, _, rest⟩ := ok_of_bind done
    obtain ⟨_, _, result⟩ := ok_of_bind rest
    rw [← Except.ok.inj result]
    have pushed := shaped.push (.instruction ⟨some block, form.opcode, form.operands⟩)
      (if form.opcode.isValue then name else "") fun held same => by
        rw [← Content.instruction.inj same]
        exact form.fits (some block)
    exact (pushed.modifyBlock block _).rewired
      (Rewired.foldl (fun m value => Rewired.addUse m ⟨_⟩ value) _ _)

/-- What is pointed elsewhere before an instruction is removed changes slots and uses only. -/
theorem Rewired.ok_of_remove {instruction : ValueId} {replacement : Option ValueId}
    (done : m.remove instruction replacement = .ok next) :
    ∃ held block redirected, m.instruction? instruction = some held ∧ held.block = some block ∧
      next = withdraw redirected block instruction ∧ Rewired m redirected := by
  obtain ⟨held, block, redirected, found, placed, same, unused | ⟨new, _, _, _, rfl⟩⟩ :=
    Module.ok_of_remove done
  · exact ⟨held, block, redirected, found, placed, same, unused.2 ▸ refl m⟩
  · exact ⟨held, block, _, found, placed, same, redirectUses m instruction new⟩

theorem Shaped.remove (shaped : Shaped m) {instruction : ValueId} {replacement : Option ValueId}
    (done : m.remove instruction replacement = .ok next) : Shaped next := by
  obtain ⟨_, block, redirected, _, _, rfl, rewired⟩ := Rewired.ok_of_remove done
  have emptied := rewired.trans (Rewired.emptySlots redirected instruction)
  exact ((shaped.rewired emptied).modifyBlock block _).detach instruction

end Module

/-- **Every operation keeps the slots of instructions as their kinds ask for.** -/
theorem Operation.shaped {m next : Module} {operation : Operation} (shaped : m.Shaped)
    (done : operation.apply m = .ok next) : next.Shaped := by
  cases operation with
  | addLiteral literal =>
    rw [← Except.ok.inj done]
    exact shaped.push (.literal literal) "" nofun
  | addGlobal storage initialiser name =>
    obtain ⟨added, granted, rfl⟩ := ok_of_map done
    exact shaped.addGlobal granted
  | addText text terminated name =>
    obtain ⟨added, granted, rfl⟩ := ok_of_map done
    exact (shaped.push (.literal _) "" nofun).addGlobal granted
  | setInitialiser target initialiser => exact shaped.setInitialiser done
  | addFunction signature name =>
    obtain ⟨added, granted, rfl⟩ := ok_of_map done
    exact shaped.addFunction granted
  | addBlock function place name =>
    obtain ⟨added, granted, rfl⟩ := ok_of_map done
    exact shaped.addBlock granted
  | insert cursor form name =>
    obtain ⟨insertion, granted, rfl⟩ := ok_of_map done
    exact shaped.insert granted
  | replaceOperand instruction slot filling =>
    exact shaped.rewired (Module.Rewired.replaceOperand done)
  | replaceUses old new => exact shaped.rewired (Module.Rewired.replaceUses done)
  | addIncoming phi value block => exact shaped.rewired (Module.Rewired.addIncoming done)
  | removeIncoming phi index => exact shaped.rewired (Module.Rewired.removeIncoming done)
  | remove instruction replacement => exact shaped.remove done
  | rename id name =>
    rw [← Except.ok.inj done]
    exact shaped.rewired (Module.Rewired.rename m id name)
  | resolveNames =>
    rw [← Except.ok.inj done]
    exact shaped.rewired (Module.Rewired.resolveNames m)

/-- **In every module that can be built, each instruction has the slots of its kind.** -/
theorem Module.Built.shaped {m : Module} (built : Built m) : m.Shaped := by
  induction built with
  | empty name => exact shaped_empty name
  | step operation _ done ih => exact Operation.shaped ih done

end SsaAmd64
