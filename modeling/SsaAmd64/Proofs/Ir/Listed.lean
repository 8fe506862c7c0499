/-
**What names a list is on it.**

The other half of the agreement between lists and names: every function and global of the arena is
on the list of its module, every parameter on that of the function it names, and every attached
instruction on that of its block. What a global takes the address of is a global.

* `Module.Lists`: the list that a value names has it;
* `Module.Keeps`: what has been listed stays so;
* `Module.Built.listed`: in every module that can be built, each value is on the list it names.
-/

import SsaAmd64.Proofs.Ir.Linked
import SsaAmd64.Proofs.Ir.Shapes

namespace SsaAmd64

def Content.onGlobal (change : Global → Global) : Content → Content
  | .global held => .global (change held)
  | content => content

namespace Module

variable {m next : Module} {id other function block : ValueId} {content : Content} {name : String}
variable {change : Entry → Entry}

/-- The list that a value names has it. -/
def Lists (m : Module) (id : ValueId) : Content → Prop
  | .function _ => id ∈ m.functions
  | .global held =>
    id ∈ m.globals ∧ ∀ value, held.initialiser = .global value → (m.global? value).isSome
  | .parameter held => id ∈ m.parametersOf held.function
  | .instruction held => ∀ block, held.block = some block → id ∈ m.instructionsOf block
  | .literal _ | .block _ => True

/-- **Every value is on the list that it names.** -/
def Listed (m : Module) : Prop :=
  ∀ id content, m.content? id = some content → m.Lists id content

/-- **What is on a list stays there.** -/
structure Keeps (m next : Module) : Prop where
  functions : m.functions ⊆ next.functions
  globals : m.globals ⊆ next.globals
  parameters : ∀ function, m.parametersOf function ⊆ next.parametersOf function
  instructions : ∀ block, m.instructionsOf block ⊆ next.instructionsOf block
  isGlobal : ∀ id, (m.global? id).isSome → (next.global? id).isSome

theorem Lists.mono (lists : m.Lists id content) (keeps : Keeps m next) : next.Lists id content := by
  cases content with
  | function held => exact keeps.functions lists
  | global held =>
    exact ⟨keeps.globals lists.1, fun value same => keeps.isGlobal value (lists.2 value same)⟩
  | parameter held => exact keeps.parameters _ lists
  | instruction held => exact fun block same => keeps.instructions block (lists block same)
  | _ => trivial

/-- Values that are what they were are on the lists that they were on. -/
theorem Listed.of_keeps (listed : Listed m) (keeps : Keeps m next)
    (new : ∀ id content, next.content? id = some content →
      m.content? id = some content ∨ next.Lists id content) : Listed next := by
  intro id content found
  rcases new id content found with old | lists
  · exact (listed id content old).mono keeps
  · exact lists

theorem content?_push (m : Module) (content : Content) (name : String) (id : ValueId) :
    (m.push content name).2.content? id =
      if id = ⟨m.entries.size⟩ then some content else m.content? id := by
  rw [content?, entry?_push, content?]
  split <;> rfl

theorem content?_modify (m : Module) (id other : ValueId) {change : Entry → Entry}
    {onContent : Content → Content} (changes : ∀ entry, (change entry).content = onContent entry.content) :
    (m.modify id change).content? other =
      if other = id then (m.content? other).map onContent else m.content? other := by
  rw [content?, entry?_modify, content?]
  split
  · rw [Option.map_map, Option.map_map]
    exact congrArg (Option.map · (m.entry? other)) (funext changes)
  · rfl

theorem content?_modifyFunction (m : Module) (id other : ValueId) (change : Function → Function) :
    (m.modifyFunction id change).content? other =
      if other = id then (m.content? other).map (Content.onFunction change)
      else m.content? other := by
  refine content?_modify m id other ?_
  rintro ⟨content, name, uses⟩
  cases content <;> rfl

theorem content?_modifyBlock (m : Module) (id other : ValueId) (change : Block → Block) :
    (m.modifyBlock id change).content? other =
      if other = id then (m.content? other).map (Content.onBlock change)
      else m.content? other := by
  refine content?_modify m id other ?_
  rintro ⟨content, name, uses⟩
  cases content <;> rfl

theorem global?_modifyBlock (m : Module) (id other : ValueId) (change : Block → Block) :
    (m.modifyBlock id change).global? other = m.global? other := by
  rw [global?, content?_modifyBlock, global?]
  by_cases same : other = id
  · rw [if_pos same]
    cases m.content? other with
    | none => rfl
    | some content => cases content <;> rfl
  · rw [if_neg same]

theorem content?_modifyGlobal (m : Module) (id other : ValueId) (change : Global → Global) :
    (m.modifyGlobal id change).content? other =
      if other = id then (m.content? other).map (Content.onGlobal change)
      else m.content? other := by
  refine content?_modify m id other ?_
  rintro ⟨content, name, uses⟩
  cases content <;> rfl

theorem content?_of_function? {held : Function} (found : m.function? id = some held) :
    m.content? id = some (.function held) := by
  rw [function?] at found
  split at found
  case h_1 here => rw [here, Option.some.inj found]
  case h_2 => cases found

theorem content?_of_global? {held : Global} (found : m.global? id = some held) :
    m.content? id = some (.global held) := by
  rw [global?] at found
  split at found
  case h_1 here => rw [here, Option.some.inj found]
  case h_2 => cases found

theorem content?_new (m : Module) : m.content? ⟨m.entries.size⟩ = none := by
  rw [content?, Module.entry?, Array.getElem?_eq_none (Nat.le_refl _)]
  rfl

/-! ### What stays on its list -/

namespace Keeps

theorem trans {first second third : Module} (one : Keeps first second)
    (other : Keeps second third) : Keeps first third :=
  ⟨List.Subset.trans one.functions other.functions, List.Subset.trans one.globals other.globals,
    fun id => List.Subset.trans (one.parameters id) (other.parameters id),
    fun id => List.Subset.trans (one.instructions id) (other.instructions id),
    fun id start => other.isGlobal id (one.isGlobal id start)⟩

/-- Functions and blocks stay what they are, with longer lists. -/
theorem of_contents (functions : m.functions ⊆ next.functions) (globals : m.globals ⊆ next.globals)
    (parameters : ∀ id held, m.content? id = some (.function held) →
      ∃ now, next.content? id = some (.function now) ∧ held.parameters ⊆ now.parameters)
    (instructions : ∀ id held, m.content? id = some (.block held) →
      ∃ now, next.content? id = some (.block now) ∧ held.instructions ⊆ now.instructions)
    (isGlobal : ∀ id held, m.content? id = some (.global held) →
      ∃ now, next.content? id = some (.global now)) : Keeps m next := by
  refine ⟨functions, globals, fun id => ?_, fun id => ?_, fun id start => ?_⟩
  · rw [parametersOf]
    cases found : m.function? id with
    | none => exact List.nil_subset _
    | some held =>
      obtain ⟨now, after, longer⟩ := parameters id held (content?_of_function? found)
      rw [parametersOf, function?, after]
      exact longer
  · rw [instructionsOf]
    cases found : m.block? id with
    | none => exact List.nil_subset _
    | some held =>
      obtain ⟨now, after, longer⟩ := instructions id held (content?_of_block? found)
      rw [instructionsOf, block?, after]
      exact longer
  · obtain ⟨held, found⟩ := Option.isSome_iff_exists.mp start
    obtain ⟨now, after⟩ := isGlobal id held (content?_of_global? found)
    rw [global?, after]
    rfl

/-- A new value is on no list yet, and has none that anything was on. -/
theorem push (m : Module) (content : Content) (name : String) :
    Keeps m (m.push content name).2 := by
  have old : ∀ id held, m.content? id = some held →
      (m.push content name).2.content? id = some held := by
    intro id held found
    rw [content?_push, if_neg, found]
    rintro rfl
    rw [content?_new] at found
    cases found
  exact of_contents (List.Subset.refl _) (List.Subset.refl _)
    (fun id held found => ⟨held, old id _ found, List.Subset.refl _⟩)
    (fun id held found => ⟨held, old id _ found, List.Subset.refl _⟩)
    (fun id held found => ⟨held, old id _ found⟩)

/-- A function that does not lose parameters. -/
theorem modifyFunction (m : Module) (id : ValueId) {change : Function → Function}
    (grows : ∀ held, m.content? id = some (.function held) →
      held.parameters ⊆ (change held).parameters) : Keeps m (m.modifyFunction id change) := by
  refine of_contents (List.Subset.refl _) (List.Subset.refl _) (fun other held found => ?_)
    (fun other held found => ?_) (fun other held found => ?_)
  · rw [content?_modifyFunction, found]
    split
    case isTrue same => exact ⟨change held, rfl, grows held (same ▸ found)⟩
    case isFalse => exact ⟨held, rfl, List.Subset.refl _⟩
  · rw [content?_modifyFunction, found]
    split <;> exact ⟨held, rfl, List.Subset.refl _⟩
  · rw [content?_modifyFunction, found]
    split <;> exact ⟨held, rfl⟩

/-- A block that does not lose instructions. -/
theorem modifyBlock (m : Module) (id : ValueId) {change : Block → Block}
    (grows : ∀ held, held.instructions ⊆ (change held).instructions) :
    Keeps m (m.modifyBlock id change) := by
  refine of_contents (List.Subset.refl _) (List.Subset.refl _) (fun other held found => ?_)
    (fun other held found => ?_) (fun other held found => ?_)
  · rw [content?_modifyBlock, found]
    split <;> exact ⟨held, rfl, List.Subset.refl _⟩
  · rw [content?_modifyBlock, found]
    split
    · exact ⟨change held, rfl, grows held⟩
    · exact ⟨held, rfl, List.Subset.refl _⟩
  · rw [content?_modifyBlock, found]
    split <;> exact ⟨held, rfl⟩

/-- What a global starts out as is on no list. -/
theorem modifyGlobal (m : Module) (id : ValueId) (change : Global → Global) :
    Keeps m (m.modifyGlobal id change) := by
  refine of_contents (List.Subset.refl _) (List.Subset.refl _) (fun other held found => ?_)
    (fun other held found => ?_) (fun other held found => ?_)
  · rw [content?_modifyGlobal, found]
    split <;> exact ⟨held, rfl, List.Subset.refl _⟩
  · rw [content?_modifyGlobal, found]
    split <;> exact ⟨held, rfl, List.Subset.refl _⟩
  · rw [content?_modifyGlobal, found]
    split
    · exact ⟨change held, rfl⟩
    · exact ⟨held, rfl⟩

/-- Longer lists of functions and globals. -/
theorem lists (m : Module) {functions globals : List ValueId} (one : m.functions ⊆ functions)
    (other : m.globals ⊆ globals) : Keeps m { m with functions, globals } :=
  ⟨one, other, fun _ => List.Subset.refl _, fun _ => List.Subset.refl _, fun _ start => start⟩

end Keeps

theorem Rewired.parametersOf (rewired : Rewired m next) (function : ValueId) :
    next.parametersOf function = m.parametersOf function := by
  have related := rewired.contents function
  rw [Module.parametersOf, Module.parametersOf, function?, function?]
  revert related
  cases next.content? function <;> cases m.content? function <;> intro related <;> cases related
  · rfl
  · rename_i related
    cases related <;> rfl

theorem Rewired.instructionsOf (rewired : Rewired m next) (block : ValueId) :
    next.instructionsOf block = m.instructionsOf block := by
  have related := rewired.contents block
  rw [Module.instructionsOf, Module.instructionsOf, block?, block?]
  revert related
  cases next.content? block <;> cases m.content? block <;> intro related <;> cases related
  · rfl
  · rename_i related
    cases related <;> rfl

theorem Rewired.global? (rewired : Rewired m next) (id : ValueId) :
    next.global? id = m.global? id := by
  have related := rewired.contents id
  rw [Module.global?, Module.global?]
  revert related
  cases next.content? id <;> cases m.content? id <;> intro related <;> cases related
  · rfl
  · rename_i related
    cases related <;> rfl

theorem Rewired.keeps (rewired : Rewired m next) : Keeps m next := by
  refine ⟨?_, ?_, fun id => ?_, fun id => ?_, fun id start => ?_⟩
  · rw [rewired.functions]
    exact List.Subset.refl _
  · rw [rewired.globals]
    exact List.Subset.refl _
  · rw [rewired.parametersOf]
    exact List.Subset.refl _
  · rw [rewired.instructionsOf]
    exact List.Subset.refl _
  · rwa [rewired.global?]

theorem Listed.rewired (listed : Listed m) (rewired : Rewired m next) : Listed next := by
  intro id content found
  have related := rewired.contents id
  rw [found] at related
  cases before : m.content? id with
  | none =>
    rw [before] at related
    cases related
  | some old =>
    rw [before] at related
    have lists := (listed id old before).mono rewired.keeps
    obtain related | _ := related
    cases related with
    | same => exact lists
    | slots => exact lists

theorem listed_empty (name : String) : Listed (Module.empty name) := by
  intro id content found
  exact absurd (lt_size_of_content? found) (Nat.not_lt_zero _)

/-! ### New values -/

/-- A new value that names no list. -/
theorem Listed.push (listed : Listed m) (content : Content) (name : String)
    (lists : (m.push content name).2.Lists ⟨m.entries.size⟩ content) :
    Listed (m.push content name).2 := by
  refine listed.of_keeps (Keeps.push m content name) fun id held found => ?_
  rw [content?_push] at found
  split at found
  case isTrue same =>
    rw [same, ← Option.some.inj found]
    exact .inr lists
  case isFalse => exact .inl found

/-- An initialiser that is granted names a global, if it names one. -/
theorem isSome_of_check {initialiser : Initialiser} {outcome : Unit}
    (granted : Initialiser.check m initialiser = .ok outcome) {value : ValueId}
    (address : initialiser = .global value) : (m.global? value).isSome := by
  subst address
  obtain ⟨held, required, _⟩ := ok_of_bind granted
  rw [requireGlobal] at required
  split at required
  case h_1 found =>
    rw [found]
    rfl
  case h_2 => cases required

theorem Listed.addGlobal (listed : Listed m) {storage : Ty} {initialiser : Initialiser}
    {added : ValueId × Module} (done : m.addGlobal storage initialiser name = .ok added) :
    Listed added.2 := by
  obtain ⟨_, granted, result⟩ := ok_of_bind done
  have keeps := (Keeps.push m (.global ⟨storage, initialiser⟩) name).trans
    (Keeps.lists _ (List.Subset.refl _) (List.subset_append_left m.globals [⟨m.entries.size⟩]))
  rw [← Except.ok.inj result]
  refine listed.of_keeps keeps fun id content found => ?_
  have found : (m.push (.global ⟨storage, initialiser⟩) name).2.content? id = some content := found
  rw [content?_push] at found
  split at found
  case isTrue same =>
    right
    rw [same, ← Option.some.inj found]
    refine ⟨List.mem_append_right _ (List.mem_singleton.mpr rfl), fun value address => ?_⟩
    exact keeps.isGlobal value (isSome_of_check granted address)
  case isFalse => exact .inl found

theorem Listed.setInitialiser (listed : Listed m) {target : ValueId} {initialiser : Initialiser}
    (done : m.setInitialiser target initialiser = .ok next) : Listed next := by
  obtain ⟨_, _, rest⟩ := ok_of_bind done
  obtain ⟨_, granted, result⟩ := ok_of_bind rest
  obtain rfl := Except.ok.inj result
  have keeps := Keeps.modifyGlobal m target fun held => { held with initialiser }
  refine listed.of_keeps keeps fun id held found => ?_
  rw [content?_modifyGlobal] at found
  split at found
  case isTrue =>
    obtain ⟨old, before, rfl⟩ := Option.map_eq_some_iff.mp found
    cases old with
    | global start =>
      exact .inr ⟨keeps.globals (listed id _ before).1, fun value address =>
        keeps.isGlobal value (isSome_of_check granted address)⟩
    | _ => exact .inl before
  case isFalse => exact .inl found

/-- New parameters, not yet on the list of their function. -/
theorem content?_pushParameters (m : Module) (function : ValueId) (position : Nat)
    (types : List Ty) (id : ValueId) :
    (m.pushParameters function position types).2.content? id = m.content? id ∨
      id ∈ (m.pushParameters function position types).1 ∧
        ∃ index type, (m.pushParameters function position types).2.content? id =
          some (.parameter ⟨function, index, type⟩) := by
  induction types generalizing m position with
  | nil => exact .inl rfl
  | cons type types ih =>
    have later := ih (m.push (.parameter ⟨function, position, type⟩) "").2 (position + 1)
    rcases later with same | ⟨member, index, held, found⟩
    · rw [content?_push] at same
      by_cases new : id = ⟨m.entries.size⟩
      · rw [if_pos new] at same
        exact .inr ⟨List.mem_cons.mpr (.inl new), position, type, same⟩
      · rw [if_neg new] at same
        exact .inl same
    · exact .inr ⟨List.mem_cons_of_mem _ member, index, held, found⟩

theorem Keeps.pushParameters (m : Module) (function : ValueId) (position : Nat) (types : List Ty) :
    Keeps m (m.pushParameters function position types).2 := by
  induction types generalizing m position with
  | nil => exact Keeps.lists m (List.Subset.refl _) (List.Subset.refl _)
  | cons type types ih =>
    exact (Keeps.push m (.parameter ⟨function, position, type⟩) "").trans (ih _ (position + 1))

/-- A new function, once its parameters have been added and both are listed. -/
theorem Listed.listParameters (listed : Listed m) {signature : Signature} {ids : List ValueId}
    {complete : Module} (keeps : Keeps (m.push (.function ⟨signature, [], []⟩) name).2 complete)
    (here : complete.content? ⟨m.entries.size⟩ = some (.function ⟨signature, [], []⟩))
    (contents : ∀ id,
      complete.content? id = (m.push (.function ⟨signature, [], []⟩) name).2.content? id ∨
        id ∈ ids ∧ ∃ index type,
          complete.content? id = some (.parameter ⟨⟨m.entries.size⟩, index, type⟩)) :
    Listed { complete.modifyFunction ⟨m.entries.size⟩ fun held =>
      { held with parameters := ids } with
      functions := complete.functions ++ [⟨m.entries.size⟩] } := by
  have grown : Keeps complete (complete.modifyFunction ⟨m.entries.size⟩ fun held =>
      { held with parameters := ids }) := by
    refine Keeps.modifyFunction _ _ fun held found => ?_
    rw [here] at found
    rw [← Content.function.inj (Option.some.inj found)]
    exact List.nil_subset _
  have kept := (((Keeps.push m _ name).trans keeps).trans grown).trans (Keeps.lists _
    (List.subset_append_left _ [⟨m.entries.size⟩]) (List.Subset.refl _))
  refine listed.of_keeps kept fun id content found => ?_
  have found : (complete.modifyFunction ⟨m.entries.size⟩ fun held =>
      { held with parameters := ids }).content? id = some content := found
  rw [content?_modifyFunction] at found
  split at found
  case isTrue same =>
    subst same
    rw [here] at found
    rw [← Option.some.inj found]
    exact .inr (List.mem_append_right _ (List.mem_singleton.mpr rfl))
  case isFalse different =>
    rcases contents id with old | ⟨member, index, type, new⟩
    · rw [found, content?_push, if_neg different] at old
      exact .inl old.symm
    · rw [found] at new
      rw [Option.some.inj new]
      right
      show id ∈ Module.parametersOf (complete.modifyFunction ⟨m.entries.size⟩ _) ⟨m.entries.size⟩
      rw [parametersOf, function?_modifyFunction, if_pos rfl, function?, here]
      exact member

theorem Listed.addFunction (listed : Listed m) {signature : Signature} {added : ValueId × Module}
    (done : m.addFunction signature name = .ok added) : Listed added.2 := by
  rw [Module.addFunction] at done
  split at done
  case isTrue => cases done
  case isFalse =>
    rw [← Except.ok.inj done]
    have contents := content?_pushParameters (m.push (.function ⟨signature, [], []⟩) name).2
      ⟨m.entries.size⟩ 0 signature.parameters
    have pushed := parametersPushed (m.push (.function ⟨signature, [], []⟩) name).2
      ⟨m.entries.size⟩ 0 signature.parameters
    have link := pushed.old ⟨m.entries.size⟩ (by
      rw [size_push]
      exact Nat.lt_succ_self _)
    refine listed.listParameters (Keeps.pushParameters _ _ 0 _) ?_ contents
    rcases contents ⟨m.entries.size⟩ with old | ⟨_, _, _, new⟩
    · refine old.trans ?_
      rw [content?_push, if_pos rfl]
    · rw [linkOf?, new, linkOf?, content?_push, if_pos rfl] at link
      cases link

theorem Listed.addBlock (listed : Listed m) {place : BlockPlace} {added : ValueId × Module}
    (done : m.addBlock function place name = .ok added) : Listed added.2 := by
  obtain ⟨_, _, result⟩ := ok_of_bind done
  rw [← Except.ok.inj result]
  have pushed := listed.push (.block ⟨function, []⟩) name trivial
  refine pushed.of_keeps (Keeps.modifyFunction _ function fun held _ => ?_) fun id content found => ?_
  · cases place <;> exact List.Subset.refl _
  · rw [content?_modifyFunction] at found
    split at found
    case isTrue =>
      obtain ⟨old, before, rfl⟩ := Option.map_eq_some_iff.mp found
      cases old with
      | function held => exact .inr (pushed id _ before)
      | _ => exact .inl before
    case isFalse => exact .inl found

/-! ### Instructions that come and go -/

theorem block?_of_requireBlock {held : Block} (granted : m.requireBlock id = .ok held) :
    m.block? id = some held := by
  rw [requireBlock] at granted
  split at granted
  case h_1 found => rw [found, Except.ok.inj granted]
  case h_2 => cases granted

theorem lt_length_of_position? {position : Nat} (found : m.position? block id = some position) :
    position < (m.instructionsOf block).length :=
  (List.findIdx?_eq_some_iff_getElem.mp found).1

/-- An insertion point stands for a place in a block. -/
theorem le_length_of_locate {point : InsertionPoint} {position : Nat}
    (located : m.locate point = .ok (block, position)) :
    (m.block? block).isSome ∧ position ≤ (m.instructionsOf block).length := by
  have anchored : ∀ {anchor : ValueId} {place : ValueId × Nat},
      Module.locate.anchored m anchor = .ok place →
        (m.block? place.1).isSome ∧ place.2 < (m.instructionsOf place.1).length := by
    intro anchor place found
    obtain ⟨held, _, rest⟩ := ok_of_bind found
    split at rest
    case h_1 => cases rest
    case h_2 =>
      split at rest
      case h_1 known =>
        rw [← Except.ok.inj rest]
        have inside := lt_length_of_position? known
        refine ⟨?_, inside⟩
        refine Option.isSome_iff_ne_none.mpr fun absent => ?_
        rw [instructionsOf, absent] at inside
        exact Nat.not_lt_zero _ inside
      case h_2 => cases rest
  cases point with
  | before anchor =>
    obtain ⟨place, found, rest⟩ := ok_of_bind located
    obtain ⟨rfl, rfl⟩ := Prod.mk.inj (Except.ok.inj rest)
    exact ⟨(anchored found).1, Nat.le_of_lt (anchored found).2⟩
  | after anchor =>
    obtain ⟨place, found, rest⟩ := ok_of_bind located
    obtain ⟨rfl, rfl⟩ := Prod.mk.inj (Except.ok.inj rest)
    exact anchored found
  | start _ =>
    obtain ⟨held, granted, rest⟩ := ok_of_bind located
    obtain ⟨rfl, rfl⟩ := Prod.mk.inj (Except.ok.inj rest)
    exact ⟨Option.isSome_iff_exists.mpr ⟨held, block?_of_requireBlock granted⟩, Nat.zero_le _⟩
  | finish _ =>
    obtain ⟨held, granted, rest⟩ := ok_of_bind located
    obtain ⟨rfl, rfl⟩ := Prod.mk.inj (Except.ok.inj rest)
    have found := block?_of_requireBlock granted
    rw [instructionsOf, found]
    exact ⟨rfl, Nat.le_refl _⟩

theorem Listed.insertAt (listed : Listed m) {position : Nat} (isBlock : (m.block? block).isSome)
    (inside : position ≤ (m.instructionsOf block).length) (opcode : Opcode) (operands : List Slot) :
    Listed (m.insertAt block position opcode operands name).2 := by
  let added : Content := .instruction ⟨some block, opcode, operands⟩
  let label := if opcode.isValue then name else ""
  suffices attached : Listed ((m.push added label).2.modifyBlock block fun held =>
      { held with instructions := held.instructions.insertIdx position ⟨m.entries.size⟩ }) from
    attached.rewired (Rewired.foldl (fun m value => Rewired.addUse m ⟨_⟩ value) _ _)
  have keeps : Keeps m ((m.push added label).2.modifyBlock block fun held =>
      { held with instructions := held.instructions.insertIdx position ⟨m.entries.size⟩ }) :=
    (Keeps.push m added label).trans
      (Keeps.modifyBlock _ block fun held => List.subset_insertIdx _ _ _)
  refine listed.of_keeps keeps fun id content found => ?_
  obtain ⟨held, known⟩ := Option.isSome_iff_exists.mp isBlock
  rw [content?_modifyBlock, content?_push] at found
  split at found
  case isTrue same =>
    subst same
    rw [if_neg (fresh_of_block? known), content?_of_block? known] at found
    rw [← Option.some.inj found]
    exact .inr trivial
  case isFalse =>
    split at found
    case isTrue same =>
      rw [same, ← Option.some.inj found]
      refine .inr fun other place => ?_
      obtain rfl := Option.some.inj place
      have later : (m.push added label).2.block? block = some held := by
        rw [block?, content?_push, if_neg (fresh_of_block? known), ← block?, known]
      rw [instructionsOf, known] at inside
      rw [instructionsOf, block?_modifyBlock, if_pos rfl, later]
      exact (List.mem_insertIdx inside).mpr (.inl rfl)
    case isFalse => exact .inl found

theorem Listed.insert (listed : Listed m) {cursor : Cursor} {form : Form} {insertion : Insertion}
    (done : cursor.insert m form name = .ok insertion) : Listed insertion.outcome := by
  rw [Cursor.insert] at done
  split at done
  case h_1 => cases done
  case h_2 =>
    obtain ⟨⟨block, position⟩, located, rest⟩ := ok_of_bind done
    obtain ⟨_, _, result⟩ := ok_of_bind rest
    obtain ⟨isBlock, inside⟩ := le_length_of_locate located
    rw [← Except.ok.inj result]
    exact listed.insertAt isBlock inside form.opcode form.operands

/-- Taking one instruction off the list of a block leaves everything else listed. -/
theorem Lists.unlist {instruction : ValueId} (lists : m.Lists id content)
    (different : id ≠ instruction) (block : ValueId) :
    Lists (m.modifyBlock block fun held =>
      { held with instructions := held.instructions.filter (· ≠ instruction) }) id content := by
  cases content with
  | parameter held =>
    show id ∈ Module.parametersOf _ held.function
    rw [parametersOf, function?_eq, bind_linkOf?_modifyBlock fun _ => rfl, ← function?_eq]
    exact lists
  | instruction held =>
    intro other place
    have member := lists other place
    rw [instructionsOf] at member
    rw [instructionsOf, block?_modifyBlock]
    split
    · cases found : m.block? other with
      | none =>
        rw [found] at member
        cases member
      | some content =>
        rw [found] at member
        exact List.mem_filter.mpr ⟨member, decide_eq_true different⟩
    · exact member
  | global held =>
    refine ⟨lists.1, fun value address => ?_⟩
    rw [global?_modifyBlock]
    exact lists.2 value address
  | _ => exact lists

/-- An instruction leaves its block. -/
theorem Listed.unlist (listed : Listed m) {instruction : ValueId} {held : Instruction}
    (known : m.instruction? instruction = some held) (block : ValueId) :
    Listed ((m.modifyBlock block fun held =>
        { held with instructions := held.instructions.filter (· ≠ instruction) }
      ).modifyInstruction instruction fun held => { held with block := none }) := by
  generalize start : (m.modifyBlock block fun held =>
    { held with instructions := held.instructions.filter (· ≠ instruction) }) = unlisted
  have before : ∀ id, unlisted.content? id = if id = block then (m.content? id).map
      (Content.onBlock fun held =>
        { held with instructions := held.instructions.filter (· ≠ instruction) })
      else m.content? id := by
    intro id
    rw [← start, content?_modifyBlock]
  have after : ∀ id, (unlisted.modifyInstruction instruction fun held =>
      { held with block := none }).content? id =
      if id = instruction then (unlisted.content? id).map Content.detach
      else unlisted.content? id := by
    intro id
    refine content?_modify unlisted instruction id ?_
    rintro ⟨content, name, uses⟩
    cases content <;> rfl
  have keeps : Keeps unlisted (unlisted.modifyInstruction instruction fun held =>
      { held with block := none }) := by
    have old : ∀ id content, (∀ held, content ≠ .instruction held) →
        unlisted.content? id = some content → (unlisted.modifyInstruction instruction
          fun held => { held with block := none }).content? id = some content := by
      intro id content other found
      rw [after, found]
      split
      · cases content with
        | instruction held => exact absurd rfl (other held)
        | _ => rfl
      · rfl
    exact Keeps.of_contents (List.Subset.refl _) (List.Subset.refl _)
      (fun id held found => ⟨held, old id _ nofun found, List.Subset.refl _⟩)
      (fun id held found => ⟨held, old id _ nofun found, List.Subset.refl _⟩)
      (fun id held found => ⟨held, old id _ nofun found⟩)
  intro id content found
  rw [after, before] at found
  split at found
  case isTrue same =>
    subst same
    rw [content?_of_instruction? known] at found
    split at found <;>
    · rw [← Option.some.inj found]
      exact nofun
  case isFalse different =>
    have kept : ∀ content, m.content? id = some content → Lists (unlisted.modifyInstruction
        instruction fun held => { held with block := none }) id content := by
      intro content old
      have lists := (listed id content old).unlist different block
      rw [start] at lists
      exact lists.mono keeps
    split at found
    case isTrue =>
      obtain ⟨content, old, rfl⟩ := Option.map_eq_some_iff.mp found
      cases content with
      | block held => trivial
      | _ => exact kept _ old
    case isFalse => exact kept content found

theorem Listed.remove (listed : Listed m) {instruction : ValueId} {replacement : Option ValueId}
    (done : m.remove instruction replacement = .ok next) : Listed next := by
  obtain ⟨_, block, redirected, found, _, rfl, rewired⟩ := Rewired.ok_of_remove done
  have emptied := rewired.trans (Rewired.emptySlots redirected instruction)
  obtain ⟨_, known, _⟩ := emptied.instruction? found
  exact (listed.rewired emptied).unlist known block

end Module

/-- **Every operation keeps values on the lists that they name.** -/
theorem Operation.listed {m next : Module} {operation : Operation} (listed : m.Listed)
    (done : operation.apply m = .ok next) : next.Listed := by
  cases operation with
  | addLiteral literal =>
    rw [← Except.ok.inj done]
    exact listed.push (.literal literal) "" trivial
  | addGlobal storage initialiser name =>
    obtain ⟨added, granted, rfl⟩ := ok_of_map done
    exact listed.addGlobal granted
  | addText text terminated name =>
    obtain ⟨added, granted, rfl⟩ := ok_of_map done
    exact (listed.push (.literal _) "" trivial).addGlobal granted
  | setInitialiser target initialiser => exact listed.setInitialiser done
  | addFunction signature name =>
    obtain ⟨added, granted, rfl⟩ := ok_of_map done
    exact listed.addFunction granted
  | addBlock function place name =>
    obtain ⟨added, granted, rfl⟩ := ok_of_map done
    exact listed.addBlock granted
  | insert cursor form name =>
    obtain ⟨insertion, granted, rfl⟩ := ok_of_map done
    exact listed.insert granted
  | replaceOperand instruction slot filling =>
    exact listed.rewired (Module.Rewired.replaceOperand done)
  | replaceUses old new => exact listed.rewired (Module.Rewired.replaceUses done)
  | addIncoming phi value block => exact listed.rewired (Module.Rewired.addIncoming done)
  | removeIncoming phi index => exact listed.rewired (Module.Rewired.removeIncoming done)
  | remove instruction replacement => exact listed.remove done
  | rename id name =>
    rw [← Except.ok.inj done]
    exact listed.rewired (Module.Rewired.rename m id name)
  | resolveNames =>
    rw [← Except.ok.inj done]
    exact listed.rewired (Module.Rewired.resolveNames m)

/-- **In every module that can be built, each value is on the list that it names.** -/
theorem Module.Built.listed {m : Module} (built : Built m) : m.Listed := by
  induction built with
  | empty name => exact listed_empty name
  | step operation _ done ih => exact Operation.listed ih done

namespace Module

variable {m : Module} {id function block : ValueId}

/-! ### What it means for functions -/

/-- What a function lists as a parameter is one. -/
theorem Linked.parameter_of_mem (linked : Linked m) (member : id ∈ m.parametersOf function) :
    ∃ held, m.parameter? id = some held ∧ held.function = function := by
  cases found : m.function? function with
  | none =>
    rw [parametersOf, found] at member
    cases member
  | some held =>
    obtain ⟨index, place⟩ := List.mem_iff_getElem?.mp member
    obtain ⟨type, _, known⟩ := linked.parameter? found place
    exact ⟨_, known, rfl⟩

theorem Listed.mem_functions (listed : Listed m) {held : Function}
    (found : m.function? id = some held) : id ∈ m.functions :=
  listed id _ (content?_of_function? found)

theorem Listed.mem_globals (listed : Listed m) {held : Global}
    (found : m.global? id = some held) : id ∈ m.globals :=
  (listed id _ (content?_of_global? found)).1

/-- What a global takes the address of is a global. -/
theorem Listed.isSome_of_initialiser (listed : Listed m) {held : Global} {value : ValueId}
    (found : m.global? id = some held) (address : held.initialiser = .global value) :
    (m.global? value).isSome :=
  (listed id _ (content?_of_global? found)).2 value address

theorem Listed.mem_parametersOf (listed : Listed m) {held : Parameter}
    (found : m.parameter? id = some held) : id ∈ m.parametersOf held.function := by
  rw [parameter?] at found
  split at found
  case h_1 here =>
    obtain rfl := Option.some.inj found
    exact listed id _ here
  case h_2 => cases found

theorem Listed.mem_instructionsOf (listed : Listed m) (placed : m.blockOf? id = some block) :
    id ∈ m.instructionsOf block := by
  obtain ⟨held, found, place⟩ := Option.bind_eq_some_iff.mp placed
  exact listed id _ (content?_of_instruction? found) block place

/-- **A value that belongs to a function is one of its parameters, one of its blocks or in one of
its blocks.** -/
theorem Built.mem_of_owner? (built : Built m) (owned : m.owner? id = some function) :
    id ∈ m.parametersOf function ∨ id ∈ m.blocksOf function ∨ id ∈ m.bodyOf function := by
  rw [owner?] at owned
  split at owned
  case h_1 held found =>
    obtain rfl := Option.some.inj owned
    have known : m.parameter? id = some held := by rw [parameter?, found]
    exact .inl (built.listed.mem_parametersOf known)
  case h_2 held found =>
    obtain rfl := Option.some.inj owned
    have known : m.block? id = some held := by rw [block?, found]
    exact .inr (.inl (built.linked.blocks known))
  case h_3 held found =>
    obtain ⟨block, place, owner⟩ := Option.bind_eq_some_iff.mp owned
    obtain ⟨content, isBlock, rfl⟩ := Option.map_eq_some_iff.mp owner
    have placed : m.blockOf? id = some block := by
      rw [blockOf?, instruction?, found]
      exact place
    exact .inr (.inr (List.mem_flatMap.mpr ⟨block, built.linked.blocks isBlock,
      built.listed.mem_instructionsOf placed⟩))
  case h_4 => cases owned

end Module

end SsaAmd64
