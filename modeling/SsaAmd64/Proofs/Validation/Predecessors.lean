/-
**Predecessors, from uses and from terminators.**

The predecessors of a block are found in two ways: a module goes through the uses of the block and
keeps the blocks of branches, a control-flow graph goes through the last instructions of the blocks
of a function. The two ways agree on accepted modules, for reasons that have to come together: what
is recorded as a use fills a slot, branches are the last instructions of their blocks, conditions
are no blocks, and branches name blocks of their own function. Both count a branch once for each
time that it names the block; they differ in the order.

* `Digraph.count_predecessors`: the transpose of a graph, counted;
* `Module.Built.branch_of_use`: a branch that uses a block stands at the end of a block of the same
  function;
* `Module.Built.count_predecessors`: how often a block is a predecessor by its uses;
* `Module.Built.perm_predecessors`: the two ways agree.
-/

import SsaAmd64.Proofs.Validation.Targets

namespace SsaAmd64

/-- Each element of a list, repeated. -/
theorem count_flatMap_replicate {α : Type} [DecidableEq α] {elements : List α}
    (distinct : elements.Nodup) (times : α → Nat) (element : α) :
    (elements.flatMap fun other => List.replicate (times other) other).count element =
      if element ∈ elements then times element else 0 := by
  induction elements with
  | nil => rfl
  | cons first others ih =>
    obtain ⟨fresh, distinct⟩ := List.nodup_cons.mp distinct
    rw [List.flatMap_cons, List.count_append, ih distinct]
    by_cases same : element = first
    · subst same
      rw [List.count_replicate_self, if_neg fresh, if_pos List.mem_cons_self]
      rfl
    · have other : first ≠ element := fun equal => same equal.symm
      rw [List.count_replicate, if_neg (by simpa using other), Nat.zero_add]
      simp [same]

/-- A vertex is the source of an edge into another as often as this is among its successors. -/
theorem Digraph.count_predecessors {V : Type} [DecidableEq V] (graph : Digraph V)
    (distinct : graph.vertices.Nodup) (source vertex : V) :
    (graph.predecessors vertex).count source =
      if source ∈ graph.vertices then (graph.successors source).count vertex else 0 := by
  rw [← count_flatMap_replicate distinct (fun source => (graph.successors source).count vertex)]
  refine congrArg (List.count source) (List.flatMap_congr fun other _ => ?_)
  rw [List.map_const', List.count_eq_length_filter]
  rfl

theorem Opcode.isTerminator_of_isBranch {opcode : Opcode} (branch : opcode.isBranch = true) :
    opcode.isTerminator = true := by
  cases opcode <;> first | rfl | cases branch

namespace Module

variable {m : Module} {function block source id : ValueId} {position : Nat} {held : Instruction}

/-! ### Branches that use a block -/

theorem hasOpcode_of_instruction? {test : Opcode → Bool} (found : m.instruction? id = some held) :
    m.hasOpcode test id = test held.opcode := by
  rw [hasOpcode, opcode?, found]
  rfl

/-- An accepted instruction that uses a block is in the function of the block. -/
theorem Built.mem_blocksOf_of_use (built : Built m) (valid : m.validate = .ok ())
    (inside : block ∈ m.blocksOf function) (used : some block ∈ held.operands)
    (found : m.instruction? id = some held) (listed : id ∈ m.instructionsOf source) :
    function ∈ m.functions ∧ source ∈ m.blocksOf function := by
  obtain ⟨content, isBlock, rfl⟩ := built.linked.owner inside
  obtain ⟨host, isHost⟩ : ∃ host, m.block? source = some host := by
    cases isHost : m.block? source with
    | some host => exact ⟨host, rfl⟩
    | none =>
      rw [instructionsOf, isHost] at listed
      cases listed
  have own : source ∈ m.blocksOf host.function := built.linked.blocks isHost
  obtain ⟨_, isFunction, _⟩ := mem_blocksOf_iff.mp own
  have member := built.listed.mem_functions isFunction
  obtain ⟨position, place⟩ := List.mem_iff_getElem?.mp listed
  have accepts := accepts_of_validate valid member own place found
  have typed : m.typeOf block = .label := typeOf_block isBlock
  have scope := built.inScope accepts (List.mem_filterMap.mpr ⟨some block, used, rfl⟩)
    (present_of_typeOf (by rw [typed]; decide))
  have near := built.linked.mem_blocksOf_of_belongs (by rw [isBlock]; rfl) (scope.belongs typed)
  obtain ⟨content', isBlock', same⟩ := built.linked.owner near
  obtain rfl : content = content' := Option.some.inj (isBlock.symm.trans isBlock')
  rw [same]
  exact ⟨member, own⟩

/-- **A branch that uses a block stands at the end of a block of the same function.** -/
theorem Built.branch_of_use (built : Built m) (valid : m.validate = .ok ())
    (inside : block ∈ m.blocksOf function) (used : id ∈ m.uses block)
    (branch : m.hasOpcode Opcode.isBranch id = true) (placed : m.blockOf? id = some source) :
    source ∈ m.blocksOf function ∧ (m.instructionsOf source).getLast? = some id := by
  obtain ⟨held, found, _⟩ := Option.bind_eq_some_iff.mp placed
  have listed := built.listed.mem_instructionsOf placed
  have named : some block ∈ held.operands := by
    rw [← List.count_pos_iff, ← operandsOf_of_instruction? found, ← built.balanced]
    exact List.count_pos_iff.mpr used
  obtain ⟨member, own⟩ := built.mem_blocksOf_of_use valid inside named found listed
  refine ⟨own, getLast?_of_isTerminator valid member own listed ?_⟩
  rw [hasOpcode_of_instruction? found] at branch ⊢
  exact Opcode.isTerminator_of_isBranch branch

/-- A block is no condition, so the slots of an accepted branch that name it are target slots. -/
theorem count_targetSlots (accepts : (RuleContext.of m function).Accepts source position held)
    (branch : held.opcode.isBranch = true) (typed : m.typeOf block = .label) :
    (targetSlots held).count (some block) = held.operands.count (some block) := by
  rw [targetSlots]
  cases kind : held.opcode with
  | br => rfl
  | condbr =>
    obtain ⟨condition, filled, bit⟩ := accepts.condbr kind
    have different : some condition ≠ some block := by
      rintro ⟨⟩
      cases bit.symm.trans typed
    cases slots : held.operands with
    | nil =>
      rw [Instruction.operand, slots] at filled
      cases filled
    | cons slot others =>
      rw [Instruction.operand, slots] at filled
      obtain rfl : slot = some condition := filled
      exact (List.count_cons_of_ne different).symm
  | _ =>
    rw [kind] at branch
    cases branch

/-- A block is named by the target slots of the last instruction as often as it is a successor. -/
theorem count_successors (last : (m.instructionsOf source).getLast? = some id)
    (found : m.instruction? id = some held) (isBlock : (m.block? block).isSome) :
    (m.successors source).count block = (targetSlots held).count (some block) := by
  rw [successors, last, Option.bind_some, found]
  dsimp only
  rw [List.count_filter (p := fun target => (m.block? target).isSome) isBlock,
    List.count_filterMap]
  rfl

theorem targetSlots_eq_nil (branch : held.opcode.isBranch = false) : targetSlots held = [] := by
  rw [targetSlots]
  split
  case h_1 kind | h_2 kind =>
    rw [kind] at branch
    cases branch
  case h_3 => rfl

/-- A branch uses a block as often as the block is a successor of the branch's block. -/
theorem Built.count_uses_of_branch (built : Built m) (valid : m.validate = .ok ())
    (inside : block ∈ m.blocksOf function) (own : source ∈ m.blocksOf function)
    (last : (m.instructionsOf source).getLast? = some id)
    (found : m.instruction? id = some held) (branch : held.opcode.isBranch = true) :
    (m.uses block).count id = (m.successors source).count block := by
  obtain ⟨content, isBlock, _⟩ := built.linked.owner inside
  obtain ⟨_, isFunction, _⟩ := mem_blocksOf_iff.mp own
  obtain ⟨position, place⟩ := List.mem_iff_getElem?.mp (List.mem_of_getLast? last)
  have accepts := accepts_of_validate valid (built.listed.mem_functions isFunction) own place found
  calc (m.uses block).count id
      = held.operands.count (some block) := by
        rw [built.balanced, operandsOf_of_instruction? found]
    _ = (targetSlots held).count (some block) :=
        (count_targetSlots accepts branch (typeOf_block isBlock)).symm
    _ = (m.successors source).count block :=
        (count_successors last found (by rw [isBlock]; rfl)).symm

/-! ### The two computations -/

/-- **How often a block is a predecessor by its uses**: as often as it has the other block as a
successor, if it is in the same function. -/
theorem Built.count_predecessors (built : Built m) (valid : m.validate = .ok ())
    (inside : block ∈ m.blocksOf function) (source : ValueId) :
    (m.predecessors block).count source =
      if source ∈ m.blocksOf function then (m.successors source).count block else 0 := by
  let branches (id : ValueId) : Bool :=
    m.blockOf? id == some source && m.hasOpcode Opcode.isBranch id
  have only : ∀ id ∈ m.uses block, branches id = true →
      source ∈ m.blocksOf function ∧ (m.instructionsOf source).getLast? = some id := by
    intro id used here
    obtain ⟨placed, branch⟩ := Bool.and_eq_true_iff.mp here
    exact built.branch_of_use valid inside used branch (eq_of_beq placed)
  have counted : (m.predecessors block).count source = (m.uses block).countP branches := by
    rw [predecessors, List.count_filterMap, List.countP_filter]
  rw [counted]
  split
  case isFalse foreign =>
    exact List.countP_eq_zero.mpr fun id used here => foreign (only id used here).1
  case isTrue own =>
    cases last : (m.instructionsOf source).getLast? with
    | none =>
      rw [successors, last]
      refine List.countP_eq_zero.mpr fun id used here => ?_
      rw [last] at only
      cases (only id used here).2
    | some id =>
      have placed : m.blockOf? id = some source := built.linked.place (List.mem_of_getLast? last)
      obtain ⟨held, found, _⟩ := Option.bind_eq_some_iff.mp placed
      have same : ∀ other ∈ m.uses block, branches other = true → other = id := by
        intro other used here
        exact (Option.some.inj (last.symm.trans (only other used here).2)).symm
      have here : branches id = held.opcode.isBranch := by
        show (m.blockOf? id == some source && m.hasOpcode Opcode.isBranch id) = _
        rw [placed, hasOpcode_of_instruction? found, beq_self_eq_true, Bool.true_and]
      cases branch : held.opcode.isBranch with
      | true =>
        rw [← built.count_uses_of_branch valid inside own last found branch,
          List.count_eq_countP]
        refine List.countP_congr fun other used => ⟨fun sound => ?_, fun equal => ?_⟩
        · exact beq_iff_eq.mpr (same other used sound)
        · rw [eq_of_beq equal, here, branch]
      | false =>
        obtain ⟨content, isBlock, _⟩ := built.linked.owner inside
        rw [count_successors last found (by rw [isBlock]; rfl), targetSlots_eq_nil branch]
        refine List.countP_eq_zero.mpr fun other used sound => ?_
        rw [same other used sound, here, branch] at sound
        cases sound

/-- **The two ways to find predecessors agree** on accepted modules, up to order. -/
theorem Built.perm_predecessors (built : Built m) (valid : m.validate = .ok ())
    (inside : block ∈ m.blocksOf function) :
    (m.predecessors block).Perm ((Cfg.of m function).predecessors block) := by
  refine List.perm_iff_count.mpr fun source => ?_
  have vertices : (Cfg.of m function).graph.vertices = m.blocksOf function :=
    vertices_graph m function
  rw [built.count_predecessors valid inside, Cfg.predecessors, Digraph.count_predecessors _ (by
    rw [vertices]
    exact built.linked.distinctBlocks function), vertices]
  refine ite_congr rfl (fun own => ?_) fun _ => rfl
  show _ = ((Cfg.of m function).successors source).count block
  rw [successors_of own, List.count_filter (List.contains_iff_mem.mpr inside)]

/-- Two conditional branches to one block, one of which names it twice, and a third branch to it
that has been taken out of its block and given its target again. -/
def meetingSteps : List Operation :=
  [.addFunction ⟨[.int 1], .void, false⟩ "f", .addBlock ⟨0⟩ .finish "entry",
    .addBlock ⟨0⟩ .finish "side", .addBlock ⟨0⟩ .finish "join",
    .insert ⟨some (.finish ⟨3⟩)⟩ (.br ⟨4⟩) "", .remove ⟨5⟩ none,
    .insert ⟨some (.finish ⟨3⟩)⟩ (.condbr ⟨1⟩ ⟨4⟩ ⟨4⟩) "",
    .insert ⟨some (.finish ⟨2⟩)⟩ (.condbr ⟨1⟩ ⟨4⟩ ⟨3⟩) "",
    .insert ⟨some (.finish ⟨4⟩)⟩ (.ret none) "", .replaceOperand ⟨5⟩ 0 (some ⟨4⟩)]

def meeting : Module := builtBy "m" meetingSteps

theorem validate_meeting : meeting.validate = .ok () := by
  have functions : meeting.functions = [⟨0⟩] := by decide +kernel
  have flow : (Cfg.of meeting ⟨0⟩).nodes =
      [(⟨2⟩, [⟨4⟩, ⟨3⟩]), (⟨3⟩, [⟨4⟩, ⟨4⟩]), (⟨4⟩, [])] := by decide +kernel
  have dominators : DominatorTree.of (Cfg.mk ⟨0⟩
      [(⟨2⟩, [⟨4⟩, ⟨3⟩]), (⟨3⟩, [⟨4⟩, ⟨4⟩]), (⟨4⟩, [])]).graph =
      ⟨[⟨2⟩, ⟨3⟩, ⟨4⟩], [none, some 0, some 0]⟩ :=
    DominatorTree.of_eq (by decide +kernel) (by decide +kernel) (by decide +kernel)
  exact validate_of_checks functions (by decide +kernel) (context_eq flow dominators)
    (by decide +kernel) (by decide +kernel)

/-- Four uses, three predecessors: in the order of the uses, and in that of the blocks. -/
theorem perm_predecessors_meeting :
    (meeting.predecessors ⟨4⟩).Perm ((Cfg.of meeting ⟨0⟩).predecessors ⟨4⟩) ∧
    meeting.uses ⟨4⟩ = [⟨6⟩, ⟨6⟩, ⟨7⟩, ⟨5⟩] ∧ meeting.predecessors ⟨4⟩ = [⟨3⟩, ⟨3⟩, ⟨2⟩] ∧
    (Cfg.of meeting ⟨0⟩).predecessors ⟨4⟩ = [⟨2⟩, ⟨3⟩, ⟨3⟩] :=
  ⟨Built.perm_predecessors (built_builtBy "m" meetingSteps) validate_meeting (by decide +kernel),
    by decide +kernel, by decide +kernel, by decide +kernel⟩

end Module

end SsaAmd64
