/-
**Which values belong together.**

A function lists its parameters and its blocks, a block lists its instructions, and each of these
names the value that lists it. Most changes of a module are to slots, uses and names, and leave all
of this alone.

* `Module.linkOf?`: what a value is, apart from slots, uses and names;
* `Module.SameLinks`: two modules in which the same values belong together;
* `Module.bind_linkOf?_modifyFunction`, `Module.bind_linkOf?_push`: what the other changes leave.
-/

import SsaAmd64.Proofs.Ir.DefUse

namespace SsaAmd64

namespace Content

/-- What a value is, apart from what slots hold and globals start out as. -/
def link : Content → Content
  | .instruction held => .instruction { held with operands := [] }
  | .global held => .global { held with initialiser := .zero }
  | content => content

def asFunction? : Content → Option Function
  | .function held => some held
  | _ => none

def asBlock? : Content → Option Block
  | .block held => some held
  | _ => none

def asParameter? : Content → Option Parameter
  | .parameter held => some held
  | _ => none

/-- The block that an instruction names. -/
def place? : Content → Option ValueId
  | .instruction held => held.block
  | _ => none

def onFunction (change : Function → Function) : Content → Content
  | .function held => .function (change held)
  | content => content

def onBlock (change : Block → Block) : Content → Content
  | .block held => .block (change held)
  | content => content

def detach : Content → Content
  | .instruction held => .instruction { held with block := none }
  | content => content

end Content

namespace Module

variable {m next : Module} {id other function block : ValueId} {change : Entry → Entry}

/-! ### Links of a value -/

/-- What a value is, as far as it matters to what belongs together. -/
def linkOf? (m : Module) (id : ValueId) : Option Content :=
  (m.content? id).map Content.link

theorem function?_eq (m : Module) (id : ValueId) :
    m.function? id = (m.linkOf? id).bind Content.asFunction? := by
  rw [function?, linkOf?]
  cases m.content? id with
  | none => rfl
  | some content => cases content <;> rfl

theorem block?_eq (m : Module) (id : ValueId) :
    m.block? id = (m.linkOf? id).bind Content.asBlock? := by
  rw [block?, linkOf?]
  cases m.content? id with
  | none => rfl
  | some content => cases content <;> rfl

theorem parameter?_eq (m : Module) (id : ValueId) :
    m.parameter? id = (m.linkOf? id).bind Content.asParameter? := by
  rw [parameter?, linkOf?]
  cases m.content? id with
  | none => rfl
  | some content => cases content <;> rfl

theorem blockOf?_eq (m : Module) (id : ValueId) :
    m.blockOf? id = (m.linkOf? id).bind Content.place? := by
  rw [blockOf?, instruction?, linkOf?]
  cases m.content? id with
  | none => rfl
  | some content => cases content <;> rfl

theorem linkOf?_eq_none (fresh : m.entries.size ≤ id.index) : m.linkOf? id = none := by
  rw [linkOf?, content?, Module.entry?, Array.getElem?_eq_none fresh]
  rfl

theorem linkOf?_of_new (new : id = ⟨m.entries.size⟩) : m.linkOf? id = none :=
  linkOf?_eq_none (Nat.le_of_eq (congrArg ValueId.index new).symm)

theorem linkOf?_push (m : Module) (content : Content) (name : String) (id : ValueId) :
    (m.push content name).2.linkOf? id =
      if id = ⟨m.entries.size⟩ then some content.link else m.linkOf? id := by
  rw [linkOf?, content?, entry?_push]
  split <;> rfl

theorem linkOf?_modifyFunction (m : Module) (id other : ValueId) (change : Function → Function) :
    (m.modifyFunction id change).linkOf? other =
      if other = id then (m.linkOf? other).map (Content.onFunction change) else m.linkOf? other := by
  rw [modifyFunction, linkOf?, content?, entry?_modify, linkOf?, content?]
  split
  · cases m.entry? other with
    | none => rfl
    | some entry =>
      obtain ⟨content, name, uses⟩ := entry
      cases content <;> rfl
  · rfl

theorem linkOf?_modifyBlock (m : Module) (id other : ValueId) (change : Block → Block) :
    (m.modifyBlock id change).linkOf? other =
      if other = id then (m.linkOf? other).map (Content.onBlock change) else m.linkOf? other := by
  rw [modifyBlock, linkOf?, content?, entry?_modify, linkOf?, content?]
  split
  · cases m.entry? other with
    | none => rfl
    | some entry =>
      obtain ⟨content, name, uses⟩ := entry
      cases content <;> rfl
  · rfl

theorem linkOf?_detach (m : Module) (id other : ValueId) :
    (m.modifyInstruction id fun held => { held with block := none }).linkOf? other =
      if other = id then (m.linkOf? other).map Content.detach else m.linkOf? other := by
  rw [modifyInstruction, linkOf?, content?, entry?_modify, linkOf?, content?]
  split
  · cases m.entry? other with
    | none => rfl
    | some entry =>
      obtain ⟨content, name, uses⟩ := entry
      cases content <;> rfl
  · rfl

/-! ### Changes that leave links alone -/

/-- The same values belong together. -/
def SameLinks (m next : Module) : Prop :=
  ∀ id, next.linkOf? id = m.linkOf? id

namespace SameLinks

theorem refl (m : Module) : SameLinks m m :=
  fun _ => rfl

theorem trans {first second third : Module} (one : SameLinks first second)
    (later : SameLinks second third) : SameLinks first third :=
  fun id => (later id).trans (one id)

theorem modify (m : Module) (id : ValueId)
    (keeps : ∀ entry, (change entry).content.link = entry.content.link) :
    SameLinks m (m.modify id change) := by
  intro other
  rw [linkOf?, content?, entry?_modify, linkOf?, content?]
  split
  · rw [Option.map_map, Option.map_map, Option.map_map]
    exact congrArg (Option.map · (m.entry? other)) (funext keeps)
  · rfl

theorem addUse (m : Module) (user value : ValueId) : SameLinks m (m.addUse user value) :=
  modify m value fun _ => rfl

theorem dropUse (m : Module) (user value : ValueId) : SameLinks m (m.dropUse user value) :=
  modify m value fun _ => rfl

/-- A change of slots. -/
theorem modifyInstruction (m : Module) (id : ValueId) (slots : List Slot → List Slot) :
    SameLinks m (m.modifyInstruction id fun held => { held with operands := slots held.operands }) := by
  refine modify m id ?_
  rintro ⟨content, name, uses⟩
  cases content <;> rfl

theorem foldl {α : Type} {step : Module → α → Module}
    (keeps : ∀ m element, SameLinks m (step m element)) (elements : List α) (m : Module) :
    SameLinks m (elements.foldl step m) :=
  foldl_preserves (fun _ element start => start.trans (keeps _ element)) elements (refl m)

theorem fillSlot (m : Module) (user : ValueId) (slot : Nat) (filling : Slot) :
    SameLinks m (m.fillSlot user slot filling) := by
  rw [fillSlot_eq]
  have released : SameLinks m (m.release user slot) := by
    unfold release
    split
    · exact dropUse m user _
    · exact refl m
  have filled : SameLinks (m.release user slot) ((m.release user slot).setSlot user slot filling) :=
    modifyInstruction _ user fun operands => operands.set slot filling
  exact (released.trans filled).trans (foldl (fun m value => addUse m user value) _ _)

theorem redirectUses (m : Module) (old new : ValueId) : SameLinks m (m.redirectUses old new) := by
  refine foldl (fun m user => foldl (fun m slot => ?_) _ m) _ m
  split
  · exact fillSlot m user slot (some new)
  · exact refl m

theorem emptySlots (m : Module) (instruction : ValueId) :
    SameLinks m (m.emptySlots instruction) :=
  foldl (fun m slot => fillSlot m instruction slot none) _ m

theorem replaceOperand {instruction : ValueId} {slot : Nat} {filling : Slot}
    (done : m.replaceOperand instruction slot filling = .ok next) : SameLinks m next := by
  obtain ⟨held, _, rest⟩ := ok_of_bind done
  split at rest
  case isTrue =>
    have result : next = m.fillSlot instruction slot filling := by
      cases filling with
      | none => exact (Except.ok.inj rest).symm
      | some value =>
        obtain ⟨_, _, result⟩ := ok_of_bind rest
        exact (Except.ok.inj result).symm
    rw [result]
    exact fillSlot m instruction slot filling
  case isFalse => cases rest

theorem replaceUses {old new : ValueId} (done : m.replaceUses old new = .ok next) :
    SameLinks m next := by
  obtain ⟨_, _, rest⟩ := ok_of_bind done
  obtain ⟨_, _, result⟩ := ok_of_bind rest
  rw [← Except.ok.inj result]
  exact redirectUses m old new

theorem addIncoming {phi value : ValueId} (done : m.addIncoming phi value block = .ok next) :
    SameLinks m next := by
  obtain ⟨held, _, rest⟩ := ok_of_bind done
  split at rest
  case isTrue =>
    obtain ⟨_, _, rest⟩ := ok_of_bind rest
    obtain ⟨_, _, result⟩ := ok_of_bind rest
    rw [← Except.ok.inj result]
    have extended := modifyInstruction m phi fun operands => operands ++ [some value, some block]
    exact (extended.trans (addUse _ phi value)).trans (addUse _ phi block)
  case isFalse => cases rest

theorem removeIncoming {phi : ValueId} {index : Nat}
    (done : m.removeIncoming phi index = .ok next) : SameLinks m next := by
  obtain ⟨held, _, rest⟩ := ok_of_bind done
  split at rest
  case isTrue =>
    rw [← Except.ok.inj rest]
    have emptied := (fillSlot m phi (2 * index) none).trans (fillSlot _ phi (2 * index + 1) none)
    exact emptied.trans (modifyInstruction _ phi fun operands =>
      operands.take (2 * index) ++ operands.drop (2 * index + 2))
  case isFalse => cases rest

theorem setInitialiser {target : ValueId} {initialiser : Initialiser}
    (done : m.setInitialiser target initialiser = .ok next) : SameLinks m next := by
  obtain ⟨_, _, rest⟩ := ok_of_bind done
  obtain ⟨_, _, result⟩ := ok_of_bind rest
  rw [← Except.ok.inj result]
  refine modify m target ?_
  rintro ⟨content, name, uses⟩
  cases content <;> rfl

theorem rename (m : Module) (id : ValueId) (name : String) : SameLinks m (m.rename id name) := by
  refine modify m id ?_
  intro entry
  split <;> rfl

theorem resolveNames (m : Module) : SameLinks m m.resolveNames :=
  foldl_preserves (fun _ _ start => start.trans (modify _ _ fun _ => rfl)) _ (refl m)

/-! ### What is asked of links -/

section Views

variable (same : SameLinks m next)
include same

theorem function? : next.function? = m.function? := by
  funext id
  rw [function?_eq, function?_eq, same]

theorem block? : next.block? = m.block? := by
  funext id
  rw [block?_eq, block?_eq, same]

theorem parameter? : next.parameter? = m.parameter? := by
  funext id
  rw [parameter?_eq, parameter?_eq, same]

theorem blockOf? : next.blockOf? = m.blockOf? := by
  funext id
  rw [blockOf?_eq, blockOf?_eq, same]

theorem blocksOf : next.blocksOf = m.blocksOf := by
  unfold Module.blocksOf
  rw [same.function?]

theorem instructionsOf : next.instructionsOf = m.instructionsOf := by
  unfold Module.instructionsOf
  rw [same.block?]

end Views

end SameLinks

/-! ### Lists of functions and blocks -/

theorem function?_modifyFunction (m : Module) (id other : ValueId) (change : Function → Function) :
    (m.modifyFunction id change).function? other =
      if other = id then (m.function? other).map change else m.function? other := by
  rw [function?_eq, linkOf?_modifyFunction, function?_eq]
  split
  · cases m.linkOf? other with
    | none => rfl
    | some content => cases content <;> rfl
  · rfl

/-- A change of a function is no change of the parts of other values. -/
theorem bind_linkOf?_modifyFunction {α : Type} {part : Content → Option α}
    (other : ∀ held, part (.function held) = none) (m : Module) (changed id : ValueId)
    (change : Function → Function) :
    (linkOf? (m.modifyFunction changed change) id).bind part = (m.linkOf? id).bind part := by
  rw [linkOf?_modifyFunction]
  split
  · rw [Option.bind_map]
    refine congrArg (Option.bind _) (funext fun content => ?_)
    cases content with
    | function held => exact (other (change held)).trans (other held).symm
    | _ => rfl
  · rfl

theorem block?_modifyBlock (m : Module) (id other : ValueId) (change : Block → Block) :
    (m.modifyBlock id change).block? other =
      if other = id then (m.block? other).map change else m.block? other := by
  rw [block?_eq, linkOf?_modifyBlock, block?_eq]
  split
  · cases m.linkOf? other with
    | none => rfl
    | some content => cases content <;> rfl
  · rfl

/-- A change of a block is no change of the parts of other values. -/
theorem bind_linkOf?_modifyBlock {α : Type} {part : Content → Option α}
    (other : ∀ held, part (.block held) = none) (m : Module) (changed id : ValueId)
    (change : Block → Block) :
    (linkOf? (m.modifyBlock changed change) id).bind part = (m.linkOf? id).bind part := by
  rw [linkOf?_modifyBlock]
  split
  · rw [Option.bind_map]
    refine congrArg (Option.bind _) (funext fun content => ?_)
    cases content with
    | block held => exact (other (change held)).trans (other held).symm
    | _ => rfl
  · rfl

/-- An instruction that has no block any more is what it was in all other parts. -/
theorem bind_linkOf?_unlist {α : Type} {part : Content → Option α}
    (keeps : ∀ content, part content.detach = part content) (m : Module)
    (block instruction id : ValueId) :
    ((m.unlist block instruction).linkOf? id).bind part =
      ((m.modifyBlock block fun held =>
        { held with instructions := held.instructions.filter (· ≠ instruction) }).linkOf? id).bind
          part := by
  unfold unlist
  rw [linkOf?_detach]
  split
  · rw [Option.bind_map]
    exact congrArg (Option.bind _) (funext keeps)
  · rfl

theorem block?_unlist (m : Module) (block instruction id : ValueId) :
    (m.unlist block instruction).block? id =
      if id = block then (m.block? id).map fun held =>
        { held with instructions := held.instructions.filter (· ≠ instruction) }
      else m.block? id := by
  rw [block?_eq, bind_linkOf?_unlist fun content => by cases content <;> rfl, ← block?_eq,
    block?_modifyBlock]

theorem instructionsOf_unlist (m : Module) (block instruction id : ValueId) :
    (m.unlist block instruction).instructionsOf id =
      if id = block then (m.instructionsOf id).filter (· ≠ instruction)
      else m.instructionsOf id := by
  unfold instructionsOf
  rw [block?_unlist]
  split
  · cases m.block? id <;> rfl
  · rfl

theorem blockOf?_unlist (m : Module) (block instruction id : ValueId) :
    (m.unlist block instruction).blockOf? id = if id = instruction then none else m.blockOf? id := by
  rw [unlist, blockOf?_eq, linkOf?_detach]
  split
  · rw [Option.bind_map]
    cases linkOf? _ id with
    | none => rfl
    | some content => cases content <;> rfl
  · rw [bind_linkOf?_modifyBlock fun _ => rfl, ← blockOf?_eq]

/-- A new value has only the parts that its content has. -/
theorem bind_linkOf?_push {α : Type} {part : Content → Option α} {content : Content}
    (without : part content.link = none) (m : Module) (name : String) (id : ValueId) :
    (linkOf? (m.push content name).2 id).bind part = (m.linkOf? id).bind part := by
  rw [linkOf?_push]
  split
  case isTrue same =>
    rw [linkOf?_of_new same]
    exact without
  case isFalse => rfl

theorem fresh_of_block? {held : Block} (known : m.block? id = some held) :
    id ≠ ⟨m.entries.size⟩ := by
  intro new
  rw [block?_eq, linkOf?_of_new new] at known
  cases known

theorem fresh_of_blockOf? (known : m.blockOf? id = some block) : id ≠ ⟨m.entries.size⟩ := by
  intro new
  rw [blockOf?_eq, linkOf?_of_new new] at known
  cases known

end Module

end SsaAmd64
