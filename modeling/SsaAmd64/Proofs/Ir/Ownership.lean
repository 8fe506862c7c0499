/-
**Where a value says that it is.**

An instruction names its block, a block its function, a parameter its function and its index. A
block lists its instructions, a function its blocks and its parameters, a module its functions and
its globals. The names and the lists are maintained apart from each other, by every way to create
and to remove; here they are counted against each other.

* `Module.Owned`: every value is listed once where it says that it is, and nowhere else;
* `Module.Owned.locate_ne_misplaced`: no anchor is missing from its block;
* `Module.Built.owned`: every module that can be built is in this state.
-/

import SsaAmd64.Proofs.Ir.Rosters

namespace SsaAmd64

namespace Module

variable {m : Module} {anchor id block function : ValueId}

theorem isSome_function?_iff : (m.function? id).isSome ↔ m.roster? id = some .functions := by
  rw [function?, roster?]
  cases m.content? id with
  | none => simp
  | some content => cases content <;> simp [Content.roster?]

/-- **Every value is listed once where it says that it is, and nowhere else.** What says nothing, or
is of another kind, is listed nowhere. -/
structure Owned (m : Module) : Prop where
  instructions : ∀ id block,
    (m.instructionsOf block).count id = if m.blockOf? id = some block then 1 else 0
  blocks : ∀ id function, (m.blocksOf function).count id =
    if (m.block? id).map Block.function = some function then 1 else 0
  /-- A parameter has its own place among the parameters of its function, -/
  parameters : ∀ {id held}, m.parameter? id = some held →
    (m.parametersOf held.function)[held.index]? = some id
  /-- and what stands in this place of a function is the parameter that says so. -/
  places : ∀ {function index id}, (m.parametersOf function)[index]? = some id →
    ∃ type, m.parameter? id = some ⟨function, index, type⟩
  functions : ∀ id, m.functions.count id = if (m.function? id).isSome then 1 else 0
  globals : ∀ id, m.globals.count id = if (m.global? id).isSome then 1 else 0

/-! ### Lists without repetition -/

theorem count_eq_ite {list : List ValueId} {named : Prop} [Decidable named]
    (distinct : list.Nodup) (listed : id ∈ list ↔ named) :
    list.count id = if named then 1 else 0 := by
  rw [distinct.count]
  exact if_congr listed rfl rfl

theorem Built.mem_instructionsOf_iff (built : Built m) :
    id ∈ m.instructionsOf block ↔ m.blockOf? id = some block :=
  ⟨built.linked.place, built.listed.mem_instructionsOf⟩

theorem Linked.mem_blocksOf_iff_map (linked : Linked m) :
    id ∈ m.blocksOf function ↔ (m.block? id).map Block.function = some function := by
  constructor
  · intro member
    obtain ⟨held, isBlock, rfl⟩ := linked.owner member
    rw [isBlock]
    rfl
  · intro named
    obtain ⟨held, isBlock, rfl⟩ := Option.map_eq_some_iff.mp named
    exact linked.blocks isBlock

/-- What stands in a place of the parameters of a function says so. -/
theorem Linked.parameter_of_place (linked : Linked m) {index : Nat}
    (place : (m.parametersOf function)[index]? = some id) :
    ∃ type, m.parameter? id = some ⟨function, index, type⟩ := by
  cases found : m.function? function with
  | none =>
    rw [parametersOf, found] at place
    cases place
  | some held =>
    obtain ⟨type, _, known⟩ := linked.parameter? found place
    exact ⟨type, known⟩

/-- A parameter stands in the place that it names. -/
theorem Built.place_of_parameter (built : Built m) {held : Parameter}
    (known : m.parameter? id = some held) :
    (m.parametersOf held.function)[held.index]? = some id := by
  obtain ⟨index, place⟩ := List.mem_iff_getElem?.mp (built.listed.mem_parametersOf known)
  obtain ⟨type, named⟩ := built.linked.parameter_of_place place
  have same : index = held.index :=
    congrArg Parameter.index (Option.some.inj (named.symm.trans known))
  rwa [← same]

/-! ### Anchors -/

theorem requireBlock_ne_misplaced : m.requireBlock id ≠ .error .misplacedAnchor := by
  rw [requireBlock]
  split <;> rintro ⟨⟩

/-- The operands of an instruction are checked for their kinds alone. -/
theorem check_ne_misplaced (m : Module) (form : Form) : form.check m ≠ .error .misplacedAnchor := by
  intro fails
  rcases error_of_bind fails with refused | ⟨_, _, fails⟩
  · obtain ⟨value, refused⟩ := error_of_forM refused
    rw [requireValue] at refused
    split at refused <;> cases refused
  · cases form
    case call callee arguments =>
      rcases error_of_bind fails with refused | ⟨_, _, fails⟩
      · rw [requireFunction] at refused
        split at refused <;> cases refused
      · cases fails
    case br target =>
      rcases error_of_bind fails with refused | ⟨_, _, fails⟩
      · exact requireBlock_ne_misplaced refused
      · cases fails
    case condbr condition ifTrue ifFalse =>
      rcases error_of_bind fails with refused | ⟨_, _, fails⟩
      · exact requireBlock_ne_misplaced refused
      · rcases error_of_bind fails with refused | ⟨_, _, fails⟩
        · exact requireBlock_ne_misplaced refused
        · cases fails
    all_goals cases fails

namespace Owned

theorem position? (owned : Owned m) (placed : m.blockOf? anchor = some block) :
    ∃ position, m.position? block anchor = some position ∧
      (m.instructionsOf block)[position]? = some anchor := by
  have member : anchor ∈ m.instructionsOf block := by
    rw [← List.count_pos_iff, owned.instructions, if_pos placed]
    exact Nat.one_pos
  cases found : m.position? block anchor with
  | none =>
    have missing := List.findIdx?_eq_none_iff.mp found anchor member
    simp at missing
  | some position =>
    obtain ⟨inside, same, _⟩ := List.findIdx?_eq_some_iff_getElem.mp found
    exact ⟨position, rfl, List.getElem?_eq_some_iff.mpr ⟨inside, of_decide_eq_true same⟩⟩

theorem anchored_ne_misplaced (owned : Owned m) :
    locate.anchored m anchor ≠ .error .misplacedAnchor := by
  intro fails
  rcases error_of_bind fails with refused | ⟨held, required, fails⟩
  · rw [requireInstruction] at refused
    split at refused <;> cases refused
  · split at fails
    case h_1 => cases fails
    case h_2 block place =>
      have known := instruction?_of_requireInstruction required
      have placed : m.blockOf? anchor = some block := by
        rw [blockOf?, known]
        exact place
      obtain ⟨position, found, _⟩ := owned.position? placed
      rw [found] at fails
      cases fails

/-- **No anchor is missing from its block.** -/
theorem locate_ne_misplaced (owned : Owned m) (point : InsertionPoint) :
    m.locate point ≠ .error .misplacedAnchor := by
  intro fails
  cases point <;> rcases error_of_bind fails with fails | ⟨_, _, fails⟩
  case before.inl | after.inl => exact owned.anchored_ne_misplaced fails
  case start.inl | finish.inl => exact requireBlock_ne_misplaced fails
  all_goals cases fails

/-- **No instruction is refused because its anchor is missing.** -/
theorem insert_ne_misplaced (owned : Owned m) (cursor : Cursor) (form : Form) (name : String) :
    cursor.insert m form name ≠ .error .misplacedAnchor := by
  rw [Cursor.insert]
  split
  case h_1 => rintro ⟨⟩
  case h_2 point _ =>
    intro fails
    rcases error_of_bind fails with missing | ⟨place, _, fails⟩
    · exact owned.locate_ne_misplaced point missing
    · rcases error_of_bind fails with refused | ⟨_, _, fails⟩
      · exact check_ne_misplaced m form refused
      · cases fails

end Owned

/-- **In every module that can be built, each value is where it says that it is**, and so no
insertion finds that its anchor is missing. -/
theorem Built.owned (built : Built m) :
    Owned m ∧ ∀ (cursor : Cursor) form name, cursor.insert m form name ≠ .error .misplacedAnchor := by
  have owned : Owned m := by
    constructor
    case instructions =>
      exact fun id block => count_eq_ite (built.linked.distinct block) built.mem_instructionsOf_iff
    case blocks =>
      exact fun id function =>
        count_eq_ite (built.linked.distinctBlocks function) built.linked.mem_blocksOf_iff_map
    case parameters => exact built.place_of_parameter
    case places => exact built.linked.parameter_of_place
    case functions =>
      refine fun id =>
        count_eq_ite built.enrolled.distinctFunctions ⟨fun member => ?_, fun known => ?_⟩
      · exact isSome_function?_iff.mpr (built.enrolled.functions id member)
      · obtain ⟨held, found⟩ := Option.isSome_iff_exists.mp known
        exact built.listed.mem_functions found
    case globals =>
      refine fun id =>
        count_eq_ite built.enrolled.distinctGlobals ⟨fun member => ?_, fun known => ?_⟩
      · exact isSome_global?_iff.mpr (built.enrolled.globals id member)
      · obtain ⟨held, found⟩ := Option.isSome_iff_exists.mp known
        exact built.listed.mem_globals found
  exact ⟨owned, owned.insert_ne_misplaced⟩

/-- A block that is filled from four sides, and loses an instruction in between. -/
def knotSteps : List Operation :=
  let here point := Operation.insert ⟨some point⟩ (.alloc (.int 8)) ""
  [.addFunction ⟨[.int 32, .int 8], .void, false⟩ "f", .addBlock ⟨0⟩ .finish "entry",
    .addBlock ⟨0⟩ .start "first", .addGlobal (.int 8) .zero "g", here (.finish ⟨3⟩),
    here (.before ⟨6⟩), here (.after ⟨6⟩), here (.start ⟨3⟩), .remove ⟨6⟩ none, here (.after ⟨7⟩)]

def knot : Module := builtBy "knot" knotSteps

/-- What has been removed is in no block, what came and went around it is in one. -/
theorem owned_knot : Owned knot ∧
    (∀ (cursor : Cursor) form name, cursor.insert knot form name ≠ .error .misplacedAnchor) ∧
    knot.blocksOf ⟨0⟩ = [⟨4⟩, ⟨3⟩] ∧ knot.instructionsOf ⟨3⟩ = [⟨9⟩, ⟨7⟩, ⟨10⟩, ⟨8⟩] ∧
    knot.blockOf? ⟨6⟩ = none := by
  have owned := Built.owned (built_builtBy "knot" knotSteps)
  exact ⟨owned.1, owned.2, by decide +kernel, by decide +kernel, by decide +kernel⟩

end Module

end SsaAmd64
