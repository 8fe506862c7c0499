/-
**Taking an instruction out of its block.**

What uses the instruction is pointed at the replacement, its own slots are emptied, and it leaves
its block. The replacement may be anything: a user of the instruction, which then uses itself, or
the instruction, which then stays in the slots of its users.

* `Module.removal`: the changes one after the other, where a refusal may come in between;
* `Module.Removed`: what has become of every slot, list and name;
* `Module.Built.remove_exact`: an instruction that is in a block is removed exactly so, or refused
  without any change;
* `Module.uses_of_self_replaced`: an instruction that has been its own replacement is still used.
-/

import SsaAmd64.Proofs.Ir.Ownership
import SsaAmd64.Proofs.Ir.Redirection

namespace SsaAmd64

namespace Module

variable {m next : Module} {id user other block : ValueId} {replacement : Option ValueId}
variable {held : Instruction} {change : Entry → Entry}

/-! ### Changes in place -/

/-- Takes an instruction out of its block in place: what has been changed before a refusal stays
changed. -/
def removal (instruction : ValueId) (replacement : Option ValueId) :
    EStateM EditError Module Unit := do
  let held ← ofExcept ((← get).requireInstruction instruction)
  match held.block with
  | none => throw (.detached instruction)
  | some block =>
    let count := ((← get).uses instruction).length
    if count ≠ 0 then
      match replacement with
      | none => throw (.inUse instruction count)
      | some new =>
        ofExcept ((← get).requireValue new)
        modifyThe Module fun m => m.redirectUses instruction new
    modifyThe Module fun m => m.withdraw block instruction

/-- **A removal is refused before anything has been changed.** -/
theorem run_removal (m : Module) (instruction : ValueId) (replacement : Option ValueId) :
    (removal instruction replacement).run m =
      match m.remove instruction replacement with
      | .ok next => .ok () next
      | .error refusal => .error refusal m := by
  unfold removal remove
  simp only [EStateM.run_bind, EStateM.run_get, ofExcept]
  cases m.requireInstruction instruction with
  | error refusal => rfl
  | ok held =>
    obtain ⟨_ | block, opcode, operands⟩ := held
    · rfl
    simp only [EStateM.run_pure, EStateM.run_bind, EStateM.run_get]
    by_cases unused : (m.uses instruction).length = 0
    · simp only [unused, ne_eq, not_true_eq_false, if_false]
      rfl
    · simp only [unused, ne_eq, not_false_eq_true, if_true]
      cases replacement with
      | none => rfl
      | some new =>
        simp only [EStateM.run_bind, EStateM.run_get]
        cases m.requireValue new <;> rfl

/-! ### Names -/

/-- The same names, of the module and of its values. -/
structure SameNames (m next : Module) : Prop where
  name : next.name = m.name
  storedName : next.storedName = m.storedName

namespace SameNames

theorem refl (m : Module) : SameNames m m :=
  ⟨rfl, rfl⟩

theorem trans {first second third : Module} (one : SameNames first second)
    (later : SameNames second third) : SameNames first third :=
  ⟨later.name.trans one.name, later.storedName.trans one.storedName⟩

theorem modify (m : Module) (id : ValueId) (keeps : ∀ entry, (change entry).name = entry.name) :
    SameNames m (m.modify id change) := by
  refine ⟨rfl, funext fun other => ?_⟩
  unfold Module.storedName
  rw [entry?_modify]
  split
  · rw [Option.map_map]
    exact congrArg (Option.getD · "") (congrArg (Option.map · (m.entry? other)) (funext keeps))
  · rfl

theorem modifyInstruction (m : Module) (id : ValueId) (change : Instruction → Instruction) :
    SameNames m (m.modifyInstruction id change) := by
  refine modify m id ?_
  rintro ⟨content, name, uses⟩
  cases content <;> rfl

theorem modifyBlock (m : Module) (id : ValueId) (change : Block → Block) :
    SameNames m (m.modifyBlock id change) := by
  refine modify m id ?_
  rintro ⟨content, name, uses⟩
  cases content <;> rfl

theorem fillSlot (m : Module) (user : ValueId) (slot : Nat) (filling : Slot) :
    SameNames m (m.fillSlot user slot filling) := by
  rw [fillSlot_eq]
  have released : SameNames m (m.release user slot) := by
    unfold release
    split
    · exact modify m _ fun _ => rfl
    · exact refl m
  exact foldl_preserves (fun _ value start => start.trans (modify _ value fun _ => rfl)) _
    (released.trans (modifyInstruction _ user _))

theorem redirectUses (m : Module) (old new : ValueId) : SameNames m (m.redirectUses old new) := by
  refine foldl_preserves (fun between user start => ?_) _ (refl m)
  refine foldl_preserves (fun between slot start => ?_) _ start
  split
  · exact start.trans (fillSlot between user slot (some new))
  · exact start

theorem withdraw (m : Module) (block instruction : ValueId) :
    SameNames m (m.withdraw block instruction) := by
  have emptied : SameNames m (m.emptySlots instruction) :=
    foldl_preserves (fun between slot start => start.trans (fillSlot between _ slot none)) _
      (refl m)
  exact (emptied.trans (modifyBlock _ block _)).trans (modifyInstruction _ instruction _)

end SameNames

/-! ### Leaving a block -/

theorem operandsOf_withdraw (m : Module) (block instruction other : ValueId) :
    (m.withdraw block instruction).operandsOf other =
      if other = instruction then (m.operandsOf instruction).map fun _ => none
      else m.operandsOf other := by
  rw [(Alike.withdrawn m block instruction).operandsOf]
  refine operandsOf_foldl_slots (fun m slot other => ?_) m other
  rw [operandsOf_fillSlot]
  refine ite_congr rfl (fun _ => List.ext_getElem? fun index => ?_) fun _ => rfl
  rw [List.getElem?_set, List.getElem?_modify]
  by_cases same : slot = index
  · simp only [same, if_true]
    split
    case isTrue inside => simp [inside]
    case isFalse outside => simp [outside]
  · simp only [same, if_false]
    exact (id_map' _).symm

theorem blockOf?_withdraw (m : Module) (block instruction other : ValueId) :
    (m.withdraw block instruction).blockOf? other =
      if other = instruction then none else m.blockOf? other := by
  rw [withdraw, blockOf?_unlist, (SameLinks.emptySlots m instruction).blockOf?]

theorem instructionsOf_withdraw (m : Module) (block instruction other : ValueId) :
    (m.withdraw block instruction).instructionsOf other =
      if other = block then (m.instructionsOf other).filter (· ≠ instruction)
      else m.instructionsOf other := by
  rw [withdraw, instructionsOf_unlist, (SameLinks.emptySlots m instruction).instructionsOf]

/-! ### Removing an instruction -/

/-- **What an instruction leaves behind**: everything is in its place and called as it was, without
the instruction; what held it holds the replacement. Something still uses it only if it was used by
another and has been its own replacement. -/
structure Removed (m next : Module) (id : ValueId) (replacement : Option ValueId) : Prop where
  detached : next.blockOf? id = none
  placed : ∀ other, other ≠ id → next.blockOf? other = m.blockOf? other
  listed : ∀ block, next.instructionsOf block = (m.instructionsOf block).filter (· ≠ id)
  emptied : next.operandsOf id = (m.operandsOf id).map fun _ => none
  redirected : ∀ user, user ≠ id → next.operandsOf user =
    (m.operandsOf user).map fun slot => if slot = some id then replacement else slot
  unused : next.uses id = [] ↔
    (replacement = some id → ∀ user, user ≠ id → some id ∉ m.operandsOf user)
  unheld : next.uses id = [] ↔ ∀ user, some id ∉ next.operandsOf user
  names : SameNames m next

/-- What leaves no list but that of its block leaves no other list. -/
theorem Linked.filter_instructionsOf (linked : Linked m) (placed : m.blockOf? id = some block)
    (other : ValueId) :
    (if other = block then (m.instructionsOf other).filter (· ≠ id) else m.instructionsOf other) =
      (m.instructionsOf other).filter (· ≠ id) := by
  split
  case isTrue => rfl
  case isFalse different =>
    refine (List.filter_eq_self.mpr fun listed member => decide_eq_true ?_).symm
    rintro rfl
    exact different (Option.some.inj ((linked.place member).symm.trans placed))

theorem mem_map_redirect_iff (slots : List Slot) (id : ValueId) (replacement : Option ValueId) :
    some id ∈ (slots.map fun slot => if slot = some id then replacement else slot) ↔
      replacement = some id ∧ some id ∈ slots := by
  simp only [List.mem_map]
  constructor
  · rintro ⟨slot, member, same⟩
    split at same
    case isTrue held => exact ⟨same, held ▸ member⟩
    case isFalse other => exact absurd same other
  · rintro ⟨rfl, member⟩
    exact ⟨some id, member, if_pos rfl⟩

/-- What leaves its block after its uses have been pointed at the replacement, if there are any. -/
theorem Built.removed_withdraw (built : Built m) (placed : m.blockOf? id = some block)
    {redirected : Module} (balanced : Balanced redirected) (links : SameLinks m redirected)
    (names : SameNames m redirected)
    (slots : ∀ user, redirected.operandsOf user =
      (m.operandsOf user).map fun slot => if slot = some id then replacement else slot) :
    Removed m (redirected.withdraw block id) id replacement := by
  have operands : ∀ user, user ≠ id → (redirected.withdraw block id).operandsOf user =
      (m.operandsOf user).map fun slot => if slot = some id then replacement else slot := by
    intro user different
    rw [operandsOf_withdraw, if_neg different, slots]
  have emptied : (redirected.withdraw block id).operandsOf id =
      (m.operandsOf id).map fun _ => none := by
    rw [operandsOf_withdraw, if_pos rfl, slots, List.map_map]
    rfl
  have balanced' : Balanced (redirected.withdraw block id) :=
    (balanced.emptySlots id).alike (.withdrawn redirected block id)
  have unheld := balanced'.uses_eq_nil_iff id
  constructor
  case detached => rw [blockOf?_withdraw, if_pos rfl]
  case placed =>
    intro other different
    rw [blockOf?_withdraw, if_neg different, links.blockOf?]
  case listed =>
    intro other
    rw [instructionsOf_withdraw, links.instructionsOf, built.linked.filter_instructionsOf placed]
  case emptied => exact emptied
  case redirected => exact operands
  case unused =>
    rw [unheld]
    constructor
    · intro absent same user different member
      refine absent user ?_
      rw [operands user different, mem_map_redirect_iff]
      exact ⟨same, member⟩
    · intro absent user
      by_cases same : user = id
      · subst same
        rw [emptied]
        simp
      · rw [operands user same, mem_map_redirect_iff]
        exact fun both => absent both.1 user same both.2
  case unheld => exact unheld
  case names => exact names.trans (SameNames.withdraw redirected block id)

/-- What a removal does once the instruction is found in a block. -/
theorem remove_of_blockOf? (placed : m.blockOf? id = some block) :
    m.remove id replacement = do
      let redirected ← if m.uses id = [] then pure m else
        match replacement with
        | some new => do
          m.requireValue new
          pure (m.redirectUses id new)
        | none => throw (.inUse id (m.uses id).length)
      return redirected.withdraw block id := by
  unfold blockOf? at placed
  obtain ⟨⟨place, opcode, operands⟩, found, attached⟩ := Option.bind_eq_some_iff.mp placed
  obtain rfl : place = some block := attached
  unfold remove requireInstruction
  simp only [found, List.length_eq_zero_iff]
  rfl

/-- **An instruction in a block is taken out of it without a trace, or nothing happens**: it stays
if it is used and nothing is to replace it, and the module stays as it is. -/
theorem Built.remove_exact (built : Built m) (placed : m.blockOf? id = some block)
    (replacement : Option ValueId) :
    (m.uses id ≠ [] ∧ (∀ new, replacement = some new → m.entry? new = none) ∧
      ∃ refusal, m.remove id replacement = .error refusal ∧
        (removal id replacement).run m = .error refusal m) ∨
    ∃ next, m.remove id replacement = .ok next ∧ (removal id replacement).run m = .ok () next ∧
      Removed m next id replacement := by
  rw [run_removal, remove_of_blockOf? placed]
  by_cases unused : m.uses id = []
  · refine .inr ⟨m.withdraw block id, by rw [if_pos unused]; rfl, by rw [if_pos unused]; rfl, ?_⟩
    refine built.removed_withdraw placed built.balanced (.refl m) (.refl m) fun user => ?_
    have absent := (built.balanced.uses_eq_nil_iff id).mp unused user
    exact (map_redirect_of_not_mem absent replacement).symm
  · simp only [if_neg unused]
    cases replacement with
    | none => exact .inl ⟨unused, fun _ given => (nomatch given), _, rfl, rfl⟩
    | some new =>
      by_cases present : (m.entry? new).isSome
      · refine .inr ⟨(m.redirectUses id new).withdraw block id, ?_, ?_, ?_⟩
        · simp only [requireValue_eq_ok present]
          rfl
        · simp only [requireValue_eq_ok present]
          rfl
        · exact built.removed_withdraw placed
            (built.balanced.redirectUses id ((m.entry?_isSome_iff new).mp present)).1
            (.redirectUses m id new) (.redirectUses m id new)
            (built.balanced.operandsOf_redirectUses id new)
      · refine .inl ⟨unused, ?_, .notValue new, ?_, ?_⟩
        · rintro _ ⟨⟩
          exact Option.not_isSome_iff_eq_none.mp present
        · simp only [requireValue, if_neg present]
          rfl
        · simp only [requireValue, if_neg present]
          rfl

/-- A phi that comes in from itself, and a sum of it with itself. -/
def spiralSteps : List Operation :=
  [.addFunction ⟨[.int 32], .int 32, false⟩ "f", .addBlock ⟨0⟩ .finish "entry",
    .addBlock ⟨0⟩ .finish "loop", .insert ⟨some (.finish ⟨3⟩)⟩ (.phi (.int 32)) "held",
    .insert ⟨some (.finish ⟨3⟩)⟩ (.binary .add ⟨4⟩ ⟨4⟩) "sum", .addIncoming ⟨4⟩ ⟨1⟩ ⟨2⟩,
    .addIncoming ⟨4⟩ ⟨4⟩ ⟨3⟩, .addIncoming ⟨4⟩ ⟨5⟩ ⟨3⟩]

def spiral : Module := builtBy "spiral" spiralSteps

/-- A phi that uses itself makes way for one of its users, which uses itself then. -/
theorem remove_exact_spiral : spiral.uses ⟨4⟩ = [⟨5⟩, ⟨5⟩, ⟨4⟩] ∧
    ∃ next, spiral.remove ⟨4⟩ (some ⟨5⟩) = .ok next ∧
      (removal ⟨4⟩ (some ⟨5⟩)).run spiral = .ok () next ∧ Removed spiral next ⟨4⟩ (some ⟨5⟩) ∧
      next.uses ⟨4⟩ = [] ∧ next.operandsOf ⟨5⟩ = [some ⟨5⟩, some ⟨5⟩] := by
  have present : spiral.entry? ⟨5⟩ ≠ none := by decide +kernel
  have placed : spiral.blockOf? ⟨4⟩ = some ⟨3⟩ := by decide +kernel
  obtain ⟨next, done, run, removed⟩ :=
    (Built.remove_exact (built_builtBy "spiral" spiralSteps) placed (some ⟨5⟩)).resolve_left
      fun refused => present (refused.2.1 _ rfl)
  refine ⟨by decide +kernel, next, done, run, removed, removed.unused.mpr fun same => ?_, ?_⟩
  · exact absurd same (by decide)
  · rw [removed.redirected _ (by decide)]
    decide +kernel

/-- A sum that is returned. -/
def doubleSteps : List Operation :=
  [.addFunction ⟨[.int 32], .int 32, false⟩ "f", .addBlock ⟨0⟩ .finish "entry",
    .insert ⟨some (.finish ⟨2⟩)⟩ (.binary .add ⟨1⟩ ⟨1⟩) "sum",
    .insert ⟨some (.finish ⟨2⟩)⟩ (.ret (some ⟨3⟩)) ""]

def double : Module := builtBy "double" doubleSteps

/-- **An instruction that has been its own replacement is gone from its block, and still used.** -/
theorem uses_of_self_replaced : double.Built ∧ double.blockOf? ⟨3⟩ = some ⟨2⟩ ∧
    ∃ next, double.remove ⟨3⟩ (some ⟨3⟩) = .ok next ∧ next.blockOf? ⟨3⟩ = none ∧
      next.uses ⟨3⟩ = [⟨4⟩] ∧ next.operandsOf ⟨4⟩ = [some ⟨3⟩] :=
  ⟨built_builtBy "double" doubleSteps, by decide +kernel, _, rfl, by decide +kernel,
    by decide +kernel, by decide +kernel⟩

end Module

end SsaAmd64
