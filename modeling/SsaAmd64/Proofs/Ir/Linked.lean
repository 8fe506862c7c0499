/-
**Lists and names agree.**

What a function or a block lists names it in turn, and nothing is listed twice. Every operation
keeps it so.

* `Module.Linked`: lists and names in agreement;
* `Module.Linked.grow`: new values that list nothing but parameters of their own;
* `Module.Linked.relist`: blocks that list other instructions than before;
* `Module.Built.linked`: every module that can be built is linked.
-/

import Mathlib.Data.List.InsertIdx
import Mathlib.Data.List.Nodup
import SsaAmd64.Proofs.Ir.Links

namespace SsaAmd64

namespace Module

variable {m next : Module} {id other function block : ValueId}

/-- **What a function or a block lists names it in turn, and nothing is listed twice.** -/
structure Linked (m : Module) : Prop where
  /-- A function has a parameter of each type of its signature, in order. -/
  parameters : ∀ {function held}, m.function? function = some held →
    held.parameters.map m.parameter? = held.signature.parameters.zipIdx.map
      fun (type, index) => some ⟨function, index, type⟩
  blocks : ∀ {block held}, m.block? block = some held → block ∈ m.blocksOf held.function
  owner : ∀ {function block}, block ∈ m.blocksOf function →
    ∃ held, m.block? block = some held ∧ held.function = function
  distinctBlocks : ∀ function, (m.blocksOf function).Nodup
  place : ∀ {block id}, id ∈ m.instructionsOf block → m.blockOf? id = some block
  distinct : ∀ block, (m.instructionsOf block).Nodup

theorem mem_blocksOf_iff : block ∈ m.blocksOf function ↔
    ∃ held, m.function? function = some held ∧ block ∈ held.blocks := by
  rw [blocksOf]
  cases m.function? function <;> simp

theorem linked_empty (name : String) : Linked (Module.empty name) := by
  have none : ∀ id, (Module.empty name).linkOf? id = none := fun id =>
    linkOf?_eq_none (Nat.zero_le _)
  have noFunction : ∀ id, (Module.empty name).function? id = Option.none := fun id => by
    rw [function?_eq, none]
    rfl
  have noBlock : ∀ id, (Module.empty name).block? id = Option.none := fun id => by
    rw [block?_eq, none]
    rfl
  constructor <;> simp [blocksOf, instructionsOf, noFunction, noBlock]

theorem Linked.sameLinks (linked : Linked m) (same : SameLinks m next) : Linked next := by
  constructor
  case parameters =>
    rw [same.function?, same.parameter?]
    exact linked.parameters
  case blocks =>
    rw [same.block?, same.blocksOf]
    exact linked.blocks
  case owner =>
    rw [same.block?, same.blocksOf]
    exact linked.owner
  case distinctBlocks =>
    rw [same.blocksOf]
    exact linked.distinctBlocks
  case place =>
    rw [same.instructionsOf, same.blockOf?]
    exact linked.place
  case distinct =>
    rw [same.instructionsOf]
    exact linked.distinct

/-- New values that list nothing but parameters of their own. -/
theorem Linked.grow (linked : Linked m)
    (old : ∀ id, m.linkOf? id ≠ none → next.linkOf? id = m.linkOf? id)
    (blocks : ∀ id, m.linkOf? id = none → next.block? id = none)
    (functions : ∀ id held, m.linkOf? id = none → next.function? id = some held →
      held.blocks = [] ∧ held.parameters.map next.parameter? =
        held.signature.parameters.zipIdx.map fun (type, index) => some ⟨id, index, type⟩) :
    Linked next := by
  have oldBlock : ∀ {id held}, next.block? id = some held → m.block? id = some held := by
    intro id held found
    by_cases fresh : m.linkOf? id = none
    · rw [blocks id fresh] at found
      cases found
    · rwa [block?_eq, old id fresh, ← block?_eq] at found
  have newBlock : ∀ {id held}, m.block? id = some held → next.block? id = some held := by
    intro id held found
    rw [block?_eq] at found ⊢
    rwa [old]
    intro fresh
    rw [fresh] at found
    cases found
  have blocksOf : ∀ function, next.blocksOf function = m.blocksOf function := by
    intro function
    by_cases fresh : m.linkOf? function = none
    · rw [Module.blocksOf, Module.blocksOf, function?_eq m, fresh]
      cases found : next.function? function with
      | none => rfl
      | some held => exact (functions function held fresh found).1
    · rw [Module.blocksOf, Module.blocksOf, function?_eq, function?_eq, old function fresh]
  have instructionsOf : ∀ block, next.instructionsOf block = m.instructionsOf block := by
    intro block
    have same : next.block? block = m.block? block := Option.ext fun held => ⟨oldBlock, newBlock⟩
    rw [Module.instructionsOf, same, Module.instructionsOf]
  constructor
  case parameters =>
    intro function held found
    by_cases fresh : m.linkOf? function = none
    · exact (functions function held fresh found).2
    · rw [function?_eq, old function fresh, ← function?_eq] at found
      rw [← linked.parameters found]
      refine List.map_congr_left fun id member => ?_
      have known : m.parameter? id ∈ held.parameters.map m.parameter? := List.mem_map_of_mem member
      rw [linked.parameters found] at known
      obtain ⟨_, _, known⟩ := List.mem_map.mp known
      rw [parameter?_eq, parameter?_eq, old]
      intro fresh
      rw [parameter?_eq, fresh] at known
      cases known
  case blocks =>
    intro block held found
    rw [blocksOf]
    exact linked.blocks (oldBlock found)
  case owner =>
    intro function block member
    rw [blocksOf] at member
    obtain ⟨held, found, same⟩ := linked.owner member
    exact ⟨held, newBlock found, same⟩
  case distinctBlocks =>
    intro function
    rw [blocksOf]
    exact linked.distinctBlocks function
  case place =>
    intro block id member
    rw [instructionsOf] at member
    have placed := linked.place member
    rw [blockOf?_eq] at placed ⊢
    rwa [old]
    intro fresh
    rw [fresh] at placed
    cases placed
  case distinct =>
    intro block
    rw [instructionsOf]
    exact linked.distinct block

/-- A new value that lists nothing. -/
theorem Linked.push (linked : Linked m) {content : Content} (name : String)
    (noFunction : content.link.asFunction? = none) (noBlock : content.link.asBlock? = none) :
    Linked (m.push content name).2 := by
  refine linked.grow ?_ ?_ ?_
  · intro id old
    rw [linkOf?_push, if_neg]
    rintro rfl
    exact old (linkOf?_eq_none (Nat.le_refl _))
  · intro id fresh
    rw [block?_eq, linkOf?_push]
    split
    · exact noBlock
    · rw [fresh]
      rfl
  · intro id held fresh found
    rw [function?_eq, linkOf?_push] at found
    split at found
    · rw [Option.bind_some, noFunction] at found
      cases found
    · rw [fresh] at found
      cases found

theorem lt_size_of_linkOf? (known : m.linkOf? id ≠ none) : id.index < m.entries.size :=
  Nat.lt_of_not_le fun fresh => known (linkOf?_eq_none fresh)

theorem Linked.addGlobal (linked : Linked m) {storage : Ty} {initialiser : Initialiser}
    {name : String} {added : ValueId × Module}
    (done : m.addGlobal storage initialiser name = .ok added) : Linked added.2 := by
  obtain ⟨_, _, result⟩ := ok_of_bind done
  rw [← Except.ok.inj result]
  exact (linked.push name rfl rfl).sameLinks fun _ => rfl

/-! ### New functions -/

/-- What new parameters leave behind: the values before them, and parameters. -/
structure ParametersPushed (m : Module) (function : ValueId) (position : Nat) (types : List Ty)
    (ids : List ValueId) (next : Module) : Prop where
  old : ∀ id : ValueId, id.index < m.entries.size → next.linkOf? id = m.linkOf? id
  fresh : ∀ id : ValueId, m.entries.size ≤ id.index →
    next.function? id = none ∧ next.block? id = none
  parameters : ids.map next.parameter? = (types.zipIdx position).map
    fun (type, index) => some ⟨function, index, type⟩

theorem parametersPushed (m : Module) (function : ValueId) (position : Nat) (types : List Ty) :
    ParametersPushed m function position types (m.pushParameters function position types).1
      (m.pushParameters function position types).2 := by
  induction types generalizing m position with
  | nil =>
    refine ⟨fun _ _ => rfl, fun id fresh => ?_, rfl⟩
    rw [function?_eq, block?_eq, pushParameters, linkOf?_eq_none fresh]
    exact ⟨rfl, rfl⟩
  | cons type types ih =>
    have later := ih (m.push (.parameter ⟨function, position, type⟩) "").2 (position + 1)
    have first := later.old ⟨m.entries.size⟩ (by rw [size_push]; exact Nat.lt_succ_self _)
    rw [linkOf?_push, if_pos rfl] at first
    constructor
    case old =>
      intro id inside
      have different : id ≠ ⟨m.entries.size⟩ := by
        rintro rfl
        exact Nat.lt_irrefl _ inside
      have same := later.old id (by rw [size_push]; exact Nat.lt_succ_of_lt inside)
      rwa [linkOf?_push, if_neg different] at same
    case fresh =>
      intro id beyond
      by_cases here : id = ⟨m.entries.size⟩
      · subst here
        rw [function?_eq, block?_eq, pushParameters, first]
        exact ⟨rfl, rfl⟩
      · refine later.fresh id ?_
        rw [size_push]
        have different : id.index ≠ m.entries.size := fun same => here (by
          cases id
          exact congrArg ValueId.mk same)
        omega
    case parameters =>
      have here : Module.parameter? (m.pushParameters function position (type :: types)).2
          ⟨m.entries.size⟩ = some ⟨function, position, type⟩ := by
        rw [parameter?_eq, pushParameters, first]
        rfl
      exact congr (congrArg List.cons here) later.parameters

/-- A new function, once its parameters have been added and are listed. -/
theorem Linked.listParameters (linked : Linked m) {signature : Signature} {name : String}
    {ids : List ValueId} {complete : Module}
    (pushed : ParametersPushed (m.push (.function ⟨signature, [], []⟩) name).2 ⟨m.entries.size⟩ 0
      signature.parameters ids complete) :
    Linked (complete.modifyFunction ⟨m.entries.size⟩ fun held => { held with parameters := ids }) := by
  have here := pushed.old ⟨m.entries.size⟩ (by rw [size_push]; exact Nat.lt_succ_self _)
  rw [linkOf?_push, if_pos rfl] at here
  have link : ∀ id, linkOf? (complete.modifyFunction ⟨m.entries.size⟩ fun held =>
      { held with parameters := ids }) id =
      if id = ⟨m.entries.size⟩ then some (.function ⟨signature, ids, []⟩)
      else complete.linkOf? id := by
    intro id
    rw [linkOf?_modifyFunction]
    split
    case isTrue same =>
      rw [same, here]
      rfl
    case isFalse => rfl
  have beyond : ∀ id, m.linkOf? id = none → id ≠ ⟨m.entries.size⟩ →
      complete.function? id = none ∧ complete.block? id = none := by
    intro id fresh different
    by_cases inside : id.index < (m.push (.function ⟨signature, [], []⟩) name).2.entries.size
    · have same := pushed.old id inside
      rw [linkOf?_push, if_neg different, fresh] at same
      rw [function?_eq, block?_eq, same]
      exact ⟨rfl, rfl⟩
    · exact pushed.fresh id (Nat.le_of_not_lt inside)
  refine linked.grow ?_ ?_ ?_
  · intro id old
    have inside := lt_size_of_linkOf? old
    have different : id ≠ ⟨m.entries.size⟩ := by
      rintro rfl
      exact Nat.lt_irrefl _ inside
    rw [link, if_neg different, pushed.old id (by rw [size_push]; exact Nat.lt_succ_of_lt inside),
      linkOf?_push, if_neg different]
  · intro id fresh
    rw [block?_eq, link]
    split
    case isTrue => rfl
    case isFalse different =>
      rw [← block?_eq]
      exact (beyond id fresh different).2
  · intro id held fresh found
    rw [function?_eq, link] at found
    split at found
    case isTrue same =>
      obtain rfl : (⟨signature, ids, []⟩ : Function) = held := Option.some.inj found
      refine ⟨rfl, ?_⟩
      rw [same, ← pushed.parameters]
      refine List.map_congr_left fun parameter member => ?_
      have known : complete.parameter? parameter ∈ ids.map complete.parameter? :=
        List.mem_map_of_mem member
      rw [pushed.parameters] at known
      obtain ⟨_, _, known⟩ := List.mem_map.mp known
      rw [parameter?_eq, link]
      split
      case isTrue same =>
        rw [parameter?_eq, same, here] at known
        cases known
      case isFalse => rw [← parameter?_eq]
    case isFalse different =>
      rw [← function?_eq, (beyond id fresh different).1] at found
      cases found

theorem Linked.addFunction (linked : Linked m) {signature : Signature} {name : String}
    {added : ValueId × Module} (done : m.addFunction signature name = .ok added) :
    Linked added.2 := by
  rw [Module.addFunction] at done
  split at done
  case isTrue => cases done
  case isFalse =>
    rw [← Except.ok.inj done]
    have pushed := parametersPushed (m.push (.function ⟨signature, [], []⟩) name).2
      ⟨m.entries.size⟩ 0 signature.parameters
    exact (linked.listParameters pushed).sameLinks fun _ => rfl

/-! ### New blocks -/

/-- The list of blocks with a new one. -/
def BlockPlace.add (place : BlockPlace) (id : ValueId) (blocks : List ValueId) : List ValueId :=
  match place with
  | .start => id :: blocks
  | .finish => blocks ++ [id]

theorem BlockPlace.mem_add (place : BlockPlace) {blocks : List ValueId} :
    other ∈ place.add id blocks ↔ other = id ∨ other ∈ blocks := by
  cases place
  · exact List.mem_cons
  · rw [add, List.mem_append, List.mem_singleton]
    exact or_comm

theorem BlockPlace.nodup_add (place : BlockPlace) {blocks : List ValueId} (fresh : id ∉ blocks)
    (distinct : blocks.Nodup) : (place.add id blocks).Nodup := by
  cases place
  · exact List.nodup_cons.mpr ⟨fresh, distinct⟩
  · refine List.nodup_append.mpr ⟨distinct, by simp, ?_⟩
    rintro first member second same rfl
    rw [List.mem_singleton] at same
    exact fresh (same ▸ member)

theorem function?_of_requireFunction {held : Function}
    (granted : m.requireFunction id = .ok held) : m.function? id = some held := by
  rw [requireFunction] at granted
  split at granted
  case h_1 found =>
    rw [found, Except.ok.inj granted]
  case h_2 => cases granted

theorem Linked.addBlock (linked : Linked m) {place : BlockPlace} {name : String}
    {added : ValueId × Module} (done : m.addBlock function place name = .ok added) :
    Linked added.2 := by
  obtain ⟨held, granted, result⟩ := ok_of_bind done
  have known := function?_of_requireFunction granted
  have outcome : added.2 = (m.push (.block ⟨function, []⟩) name).2.modifyFunction function
      fun held => { held with blocks := place.add ⟨m.entries.size⟩ held.blocks } := by
    rw [← Except.ok.inj result]
    cases place <;> rfl
  rw [outcome]
  generalize equal : (m.push (.block ⟨function, []⟩) name).2.modifyFunction function
    (fun held => { held with blocks := place.add ⟨m.entries.size⟩ held.blocks }) = next
  have function? : ∀ id, next.function? id = if id = function then (m.function? id).map
      (fun held => { held with blocks := place.add ⟨m.entries.size⟩ held.blocks })
      else m.function? id := by
    intro id
    have same : (m.push (.block ⟨function, []⟩) name).2.function? id = m.function? id := by
      rw [function?_eq, function?_eq, bind_linkOf?_push rfl]
    rw [← equal, function?_modifyFunction, same]
  have block? : ∀ id, next.block? id =
      if id = ⟨m.entries.size⟩ then some ⟨function, []⟩ else m.block? id := by
    intro id
    rw [← equal, block?_eq, bind_linkOf?_modifyFunction fun _ => rfl, linkOf?_push, block?_eq]
    split <;> rfl
  have parameter? : next.parameter? = m.parameter? := by
    funext id
    rw [← equal, parameter?_eq, bind_linkOf?_modifyFunction fun _ => rfl, bind_linkOf?_push rfl,
      parameter?_eq]
  have blockOf? : ∀ id, next.blockOf? id = m.blockOf? id := by
    intro id
    rw [← equal, blockOf?_eq, bind_linkOf?_modifyFunction fun _ => rfl, bind_linkOf?_push rfl,
      blockOf?_eq]
  have blocksOf : ∀ id, next.blocksOf id =
      if id = function then place.add ⟨m.entries.size⟩ (m.blocksOf id) else m.blocksOf id := by
    intro id
    rw [Module.blocksOf, function?, Module.blocksOf]
    split
    case isTrue same =>
      rw [same, known]
      rfl
    case isFalse => rfl
  have instructionsOf : ∀ id, next.instructionsOf id = m.instructionsOf id := by
    intro id
    rw [Module.instructionsOf, block?, Module.instructionsOf]
    split
    case isTrue same =>
      rw [block?_eq, linkOf?_of_new same]
      rfl
    case isFalse => rfl
  constructor
  case parameters =>
    intro id held found
    rw [function?] at found
    rw [parameter?]
    split at found
    · obtain ⟨old, before, rfl⟩ := Option.map_eq_some_iff.mp found
      have same := linked.parameters before
      exact same
    · exact linked.parameters found
  case blocks =>
    intro id held found
    rw [block?] at found
    rw [blocksOf]
    split at found
    case isTrue same =>
      obtain rfl : (⟨function, []⟩ : Block) = held := Option.some.inj found
      rw [if_pos rfl, place.mem_add]
      exact .inl same
    case isFalse =>
      have member := linked.blocks found
      split
      · exact place.mem_add.mpr (.inr member)
      · exact member
  case owner =>
    intro id other member
    rw [blocksOf] at member
    have old : other ∈ m.blocksOf id → ∃ held, next.block? other = some held ∧ held.function = id := by
      intro member
      obtain ⟨held, found, same⟩ := linked.owner member
      refine ⟨held, ?_, same⟩
      rw [block?, if_neg (fresh_of_block? found), found]
    split at member
    case isTrue same =>
      rcases place.mem_add.mp member with rfl | member
      · exact ⟨⟨function, []⟩, by rw [block?, if_pos rfl], same.symm⟩
      · exact old member
    case isFalse => exact old member
  case distinctBlocks =>
    intro id
    rw [blocksOf]
    split
    · refine place.nodup_add (fun member => ?_) (linked.distinctBlocks id)
      obtain ⟨held, found, _⟩ := linked.owner member
      exact fresh_of_block? found rfl
    · exact linked.distinctBlocks id
  case place =>
    intro block id member
    rw [instructionsOf] at member
    rw [blockOf?]
    exact linked.place member
  case distinct =>
    intro block
    rw [instructionsOf]
    exact linked.distinct block

/-! ### Instructions that come and go -/

/-- Blocks list other instructions than before. -/
theorem Linked.relist (linked : Linked m) (function? : ∀ id, next.function? id = m.function? id)
    (parameter? : ∀ id, next.parameter? id = m.parameter? id)
    (owner : ∀ id, (next.block? id).map Block.function = (m.block? id).map Block.function)
    (place : ∀ block, ∀ id ∈ next.instructionsOf block, next.blockOf? id = some block)
    (distinct : ∀ block, (next.instructionsOf block).Nodup) : Linked next := by
  have blocksOf : ∀ id, next.blocksOf id = m.blocksOf id := by
    intro id
    rw [Module.blocksOf, function?, Module.blocksOf]
  constructor
  case parameters =>
    intro id held found
    rw [function?] at found
    rw [funext parameter?]
    exact linked.parameters found
  case blocks =>
    intro id held found
    have same := owner id
    rw [found] at same
    obtain ⟨old, before, function⟩ := Option.map_eq_some_iff.mp same.symm
    rw [blocksOf, ← function]
    exact linked.blocks before
  case owner =>
    intro id other member
    rw [blocksOf] at member
    obtain ⟨held, found, function⟩ := linked.owner member
    have same := owner other
    rw [found] at same
    obtain ⟨now, after, kept⟩ := Option.map_eq_some_iff.mp same
    exact ⟨now, after, kept.trans function⟩
  case distinctBlocks =>
    intro id
    rw [blocksOf]
    exact linked.distinctBlocks id
  case place =>
    intro block id member
    exact place block id member
  case distinct => exact distinct

/-- The uses of its operands aside, a new instruction is entered and put on the list of its
block. -/
theorem sameLinks_insertAt (m : Module) (block : ValueId) (position : Nat) (opcode : Opcode)
    (operands : List Slot) (name : String) :
    SameLinks ((m.push (.instruction ⟨some block, opcode, operands⟩)
        (if opcode.isValue then name else "")).2.modifyBlock block fun held =>
      { held with instructions := held.instructions.insertIdx position ⟨m.entries.size⟩ })
      (m.insertAt block position opcode operands name).2 :=
  SameLinks.foldl (fun m value => SameLinks.addUse m ⟨_⟩ value) _ _

theorem block?_insertAt (m : Module) (block : ValueId) (position : Nat) (opcode : Opcode)
    (operands : List Slot) (name : String) (id : ValueId) :
    (m.insertAt block position opcode operands name).2.block? id =
      if id = block then (m.block? id).map fun held =>
        { held with instructions := held.instructions.insertIdx position ⟨m.entries.size⟩ }
      else m.block? id := by
  rw [(sameLinks_insertAt m block position opcode operands name).block?, block?_modifyBlock,
    block?_eq, bind_linkOf?_push rfl, ← block?_eq]

theorem Linked.insertAt (linked : Linked m) (block : ValueId) (position : Nat) (opcode : Opcode)
    (operands : List Slot) (name : String) :
    Linked (m.insertAt block position opcode operands name).2 := by
  have links := sameLinks_insertAt m block position opcode operands name
  have block? := block?_insertAt m block position opcode operands name
  generalize (m.insertAt block position opcode operands name).2 = next at links block?
  have blockOf? : ∀ id, next.blockOf? id =
      if id = ⟨m.entries.size⟩ then some block else m.blockOf? id := by
    intro id
    rw [links.blockOf?, blockOf?_eq, bind_linkOf?_modifyBlock fun _ => rfl, linkOf?_push,
      blockOf?_eq]
    split <;> rfl
  have instructionsOf : ∀ id, next.instructionsOf id = m.instructionsOf id ∨
      id = block ∧ next.instructionsOf id =
        (m.instructionsOf id).insertIdx position ⟨m.entries.size⟩ := by
    intro id
    rw [Module.instructionsOf, block?, Module.instructionsOf]
    split
    case isTrue same =>
      cases m.block? id with
      | none => exact .inl rfl
      | some held => exact .inr ⟨same, rfl⟩
    case isFalse => exact .inl rfl
  have old : ∀ {block id}, id ∈ m.instructionsOf block → next.blockOf? id = some block := by
    intro block id member
    have placed := linked.place member
    rw [blockOf?, if_neg (fresh_of_blockOf? placed), placed]
  refine linked.relist ?_ ?_ ?_ ?_ ?_
  · intro id
    rw [links.function?, function?_eq, bind_linkOf?_modifyBlock fun _ => rfl,
      bind_linkOf?_push rfl, function?_eq]
  · intro id
    rw [links.parameter?, parameter?_eq, bind_linkOf?_modifyBlock fun _ => rfl,
      bind_linkOf?_push rfl, parameter?_eq]
  · intro id
    rw [block?]
    split
    · rw [Option.map_map]
      rfl
    · rfl
  · intro other id member
    rcases instructionsOf other with same | ⟨rfl, same⟩
    · rw [same] at member
      exact old member
    · rw [same] at member
      rcases List.eq_or_mem_of_mem_insertIdx member with rfl | member
      · rw [blockOf?, if_pos rfl]
      · exact old member
  · intro other
    rcases instructionsOf other with same | ⟨rfl, same⟩
    · rw [same]
      exact linked.distinct other
    · rw [same]
      by_cases inside : position ≤ (m.instructionsOf other).length
      · rw [(List.perm_insertIdx _ _ inside).nodup_iff, List.nodup_cons]
        exact ⟨fun member => fresh_of_blockOf? (linked.place member) rfl, linked.distinct other⟩
      · rw [List.insertIdx_of_length_lt (Nat.lt_of_not_le inside)]
        exact linked.distinct other

theorem Linked.insert (linked : Linked m) {cursor : Cursor} {form : Form} {name : String}
    {insertion : Insertion} (done : cursor.insert m form name = .ok insertion) :
    Linked insertion.outcome := by
  rw [Cursor.insert] at done
  split at done
  case h_1 => cases done
  case h_2 =>
    obtain ⟨⟨block, position⟩, _, rest⟩ := ok_of_bind done
    obtain ⟨_, _, result⟩ := ok_of_bind rest
    rw [← Except.ok.inj result]
    exact linked.insertAt block position form.opcode form.operands name

/-- An instruction leaves its block. -/
theorem Linked.unlist (linked : Linked m) {instruction : ValueId}
    (placed : m.blockOf? instruction = some block) : Linked (m.unlist block instruction) := by
  refine linked.relist ?_ ?_ ?_ ?_ ?_
  · intro id
    rw [function?_eq, bind_linkOf?_unlist fun content => by cases content <;> rfl,
      bind_linkOf?_modifyBlock fun _ => rfl, function?_eq]
  · intro id
    rw [parameter?_eq, bind_linkOf?_unlist fun content => by cases content <;> rfl,
      bind_linkOf?_modifyBlock fun _ => rfl, parameter?_eq]
  · intro id
    rw [block?_unlist]
    split
    · rw [Option.map_map]
      rfl
    · rfl
  · intro other id member
    rw [instructionsOf_unlist] at member
    have here : id ∈ m.instructionsOf other := by
      split at member
      · exact (List.mem_filter.mp member).1
      · exact member
    have different : id ≠ instruction := by
      rintro rfl
      rw [linked.place here] at placed
      rw [if_pos (Option.some.inj placed)] at member
      simpa using (List.mem_filter.mp member).2
    rw [blockOf?_unlist, if_neg different, linked.place here]
  · intro other
    rw [instructionsOf_unlist]
    split
    · exact (linked.distinct other).filter _
    · exact linked.distinct other

theorem Linked.remove (linked : Linked m) {instruction : ValueId} {replacement : Option ValueId}
    (done : m.remove instruction replacement = .ok next) : Linked next := by
  obtain ⟨held, block, redirected, found, attached, rfl, origin⟩ := ok_of_remove done
  have same : SameLinks m redirected := by
    obtain unused | ⟨new, _, _, _, rfl⟩ := origin
    · exact unused.2 ▸ SameLinks.refl m
    · exact SameLinks.redirectUses m instruction new
  have emptied := same.trans (SameLinks.emptySlots redirected instruction)
  refine (linked.sameLinks emptied).unlist ?_
  rw [emptied.blockOf?, blockOf?, found]
  exact attached

end Module

/-- **Every operation keeps a module linked.** -/
theorem Operation.linked {m next : Module} {operation : Operation} (linked : Module.Linked m)
    (done : operation.apply m = .ok next) : Module.Linked next := by
  cases operation with
  | addLiteral literal =>
    rw [← Except.ok.inj done]
    exact linked.push "" rfl rfl
  | addGlobal storage initialiser name =>
    obtain ⟨added, granted, rfl⟩ := ok_of_map done
    exact linked.addGlobal granted
  | addText text terminated name =>
    obtain ⟨added, granted, rfl⟩ := ok_of_map done
    exact (linked.push "" rfl rfl).addGlobal granted
  | setInitialiser target initialiser =>
    exact linked.sameLinks (Module.SameLinks.setInitialiser done)
  | addFunction signature name =>
    obtain ⟨added, granted, rfl⟩ := ok_of_map done
    exact linked.addFunction granted
  | addBlock function place name =>
    obtain ⟨added, granted, rfl⟩ := ok_of_map done
    exact linked.addBlock granted
  | insert cursor form name =>
    obtain ⟨insertion, granted, rfl⟩ := ok_of_map done
    exact linked.insert granted
  | replaceOperand instruction slot filling =>
    exact linked.sameLinks (Module.SameLinks.replaceOperand done)
  | replaceUses old new => exact linked.sameLinks (Module.SameLinks.replaceUses done)
  | addIncoming phi value block => exact linked.sameLinks (Module.SameLinks.addIncoming done)
  | removeIncoming phi index => exact linked.sameLinks (Module.SameLinks.removeIncoming done)
  | remove instruction replacement => exact linked.remove done
  | rename id name =>
    rw [← Except.ok.inj done]
    exact linked.sameLinks (Module.SameLinks.rename m id name)
  | resolveNames =>
    rw [← Except.ok.inj done]
    exact linked.sameLinks (Module.SameLinks.resolveNames m)

namespace Module

variable {m : Module} {id function block : ValueId}

/-- **Every module that can be built is linked.** -/
theorem Built.linked (built : Built m) : Linked m := by
  induction built with
  | empty name => exact linked_empty name
  | step operation _ done ih => exact Operation.linked ih done

/-! ### What agreement means for functions -/

theorem parametersOf_eq {held : Function} (found : m.function? function = some held) :
    m.parametersOf function = held.parameters := by
  rw [parametersOf, found]
  rfl

theorem Linked.parameter? (linked : Linked m) {held : Function} {index : Nat}
    (found : m.function? function = some held) (place : (m.parametersOf function)[index]? = some id) :
    ∃ type, held.signature.parameters[index]? = some type ∧
      m.parameter? id = some ⟨function, index, type⟩ := by
  rw [parametersOf_eq found] at place
  have same := congrArg (fun list => list[index]?) (linked.parameters found)
  rw [List.getElem?_map, place, List.getElem?_map, List.getElem?_zipIdx, Nat.zero_add] at same
  cases known : held.signature.parameters[index]? with
  | none =>
    rw [known] at same
    cases same
  | some type =>
    rw [known] at same
    exact ⟨type, rfl, Option.some.inj same⟩

theorem Linked.length_parametersOf (linked : Linked m) {held : Function}
    (found : m.function? function = some held) :
    (m.parametersOf function).length = held.signature.parameters.length := by
  rw [parametersOf_eq found]
  simpa using congrArg List.length (linked.parameters found)

theorem Linked.nodup_parametersOf (linked : Linked m) (function : ValueId) :
    (m.parametersOf function).Nodup := by
  cases found : m.function? function with
  | none =>
    rw [parametersOf, found]
    exact List.nodup_nil
  | some held =>
    refine List.nodup_iff_getElem?_ne_getElem?.mpr fun i j less inside same => ?_
    have place := List.getElem?_eq_getElem inside
    rw [place] at same
    obtain ⟨_, _, one⟩ := linked.parameter? found same
    obtain ⟨_, _, other⟩ := linked.parameter? found place
    rw [one] at other
    exact Nat.ne_of_lt less (congrArg Parameter.index (Option.some.inj other))

theorem Linked.nodup_bodyOf (linked : Linked m) (function : ValueId) :
    (m.bodyOf function).Nodup := by
  refine List.nodup_flatMap.mpr ⟨fun block _ => linked.distinct block, ?_⟩
  refine (linked.distinctBlocks function).imp fun different id here there => different ?_
  have one := linked.place here
  rw [linked.place there] at one
  exact (Option.some.inj one).symm

end Module

end SsaAmd64
