/-
**The targets of accepted branches.**

Validation demands the type of a block from each target slot, not a block. A target that is a block
is one of the function other than its entry, and is an edge of the control-flow graph. A parameter,
or the result of an instruction, may have that type as well: it is accepted as a target, and the
graph has no edge for it.

* `Module.Targets`: the target slots of a branch against the edges of the graph;
* `Module.Built.exists_targets`: the graph has the edges of a branch exactly when all its targets
  are blocks;
* `Module.branch_without_edge`: an accepted branch that the graph knows nothing of.
-/

import SsaAmd64.Proofs.Validation.DefinedReads
import SsaAmd64.Proofs.Validation.Scope

namespace SsaAmd64

namespace Module

variable {m : Module} {function block id value target : ValueId} {position : Nat}
variable {held : Instruction}

/-! ### Shape of blocks -/

theorem eq_nil_of_reportFirst {site : ValueId → Site} {fault : Fault} {faulty : List ValueId}
    {outcome : Unit} (passed : reportFirst site fault faulty = .ok outcome) : faulty = [] := by
  cases faulty with
  | nil => rfl
  | cons first others => cases passed

/-- A terminator of an accepted module is the last instruction of its block. -/
theorem getLast?_of_isTerminator (valid : m.validate = .ok ()) (member : function ∈ m.functions)
    (inside : block ∈ m.blocksOf function) (listed : id ∈ m.instructionsOf block)
    (terminates : m.hasOpcode Opcode.isTerminator id = true) :
    (m.instructionsOf block).getLast? = some id := by
  obtain ⟨_, _, rest⟩ := ok_of_bind valid
  obtain ⟨_, early, _⟩ := ok_of_bind rest
  have none := eq_nil_of_reportFirst early
  have notEarly : id ∉ (m.instructionsOf block).dropLast := by
    intro among
    have faulty : id ∈ m.allBlocks.flatMap m.earlyTerminators :=
      List.mem_flatMap.mpr ⟨block, List.mem_flatMap.mpr ⟨function, member, inside⟩,
        List.mem_filter.mpr ⟨among, terminates⟩⟩
    rw [none] at faulty
    cases faulty
  have nonempty : m.instructionsOf block ≠ [] := List.ne_nil_of_mem listed
  rw [← List.dropLast_concat_getLast nonempty] at listed
  rcases List.mem_append.mp listed with among | last
  · exact absurd among notEarly
  · rw [List.mem_singleton.mp last]
    exact List.getLast?_eq_some_getLast nonempty

/-- No branch names the entry block of a function. -/
theorem Built.entry_not_mem_operands (built : Built m) (valid : m.validate = .ok ())
    (member : function ∈ m.functions) (first : m.entryOf? function = some target)
    (found : m.instruction? id = some held) (branch : held.opcode.isBranch = true) :
    some target ∉ held.operands := by
  intro named
  obtain ⟨_, _, rest⟩ := ok_of_bind valid
  obtain ⟨_, _, rest⟩ := ok_of_bind rest
  obtain ⟨_, _, rest⟩ := ok_of_bind rest
  obtain ⟨_, checked, _⟩ := ok_of_bind rest
  have none := eq_nil_of_reportFirst checked
  have recorded : id ∈ m.uses target := by
    refine List.count_pos_iff.mp ?_
    rw [built.balanced, operandsOf_of_instruction? found]
    exact List.count_pos_iff.mpr named
  have branches : m.hasOpcode Opcode.isBranch id = true := by
    rw [hasOpcode, opcode?, found]
    exact branch
  have faulty : id ∈ m.allEntries.flatMap fun entry =>
      (m.uses entry).filter (m.hasOpcode Opcode.isBranch) :=
    List.mem_flatMap.mpr ⟨target, List.mem_filterMap.mpr ⟨function, member, first⟩,
      List.mem_filter.mpr ⟨recorded, branches⟩⟩
  rw [none] at faulty
  cases faulty

/-! ### Target slots -/

theorem lookup_map_of_mem {β : Type} {keys : List ValueId} {key : ValueId} (member : key ∈ keys)
    (part : ValueId → β) : (keys.map fun key => (key, part key)).lookup key = some (part key) := by
  induction keys with
  | nil => cases member
  | cons first others ih =>
    rw [List.map_cons, List.lookup_cons]
    by_cases same : key = first
    · rw [same, beq_self_eq_true]
    · rw [beq_eq_false_iff_ne.mpr same]
      exact ih ((List.mem_cons.mp member).resolve_left same)

/-- The edges out of a block are those that its last instruction names. -/
theorem successors_of (inside : block ∈ m.blocksOf function) :
    (Cfg.of m function).successors block =
      (m.successors block).filter ((m.blocksOf function).contains ·) := by
  rw [Cfg.successors, Cfg.of]
  rw [lookup_map_of_mem inside fun block =>
    (m.successors block).filter ((m.blocksOf function).contains ·)]
  rfl

/-- **The target slots of a branch against the edges of the control-flow graph.** -/
structure Targets (m : Module) (function block : ValueId) (held : Instruction)
    (targets : List ValueId) : Prop where
  slots : targetSlots held = targets.map some
  /-- One for an unconditional branch, two for a conditional one. -/
  count : targets.length = if held.opcode = .br then 1 else 2
  label : ∀ target ∈ targets, m.typeOf target = .label
  /-- A target is a parameter, a block or an instruction of the function. -/
  belongs : ∀ target ∈ targets, target ∈ m.parametersOf function ∨ target ∈ m.blocksOf function ∨
    target ∈ m.bodyOf function
  notEntry : ∀ target ∈ targets, m.entryOf? function ≠ some target
  /-- The targets that are blocks are the edges, in order. -/
  edges : (Cfg.of m function).successors block =
    targets.filter ((m.blocksOf function).contains ·)

/-- The target slots of a branch with the right number of slots hold values of the type of
blocks. -/
theorem exists_labels (accepts : (RuleContext.of m function).Accepts block position held)
    (fits : held.Fits) (branch : held.opcode.isBranch = true) :
    ∃ targets : List ValueId, targetSlots held = targets.map some ∧
      targets.length = (if held.opcode = .br then 1 else 2) ∧
      ∀ target ∈ targets, m.typeOf target = .label := by
  obtain ⟨place, opcode, operands⟩ := held
  cases opcode with
  | br =>
    obtain ⟨slot, rfl⟩ := List.length_eq_one_iff.mp fits
    obtain ⟨target, filled, typed⟩ := accepts.br rfl
    obtain rfl : slot = some target := filled
    exact ⟨[target], rfl, rfl, List.forall_mem_singleton.mpr typed⟩
  | condbr =>
    obtain ⟨condition, slot, slot', rfl⟩ := List.length_eq_three.mp fits
    obtain ⟨target, target', filled, filled', typed, typed'⟩ := accepts.condbrTargets rfl
    obtain rfl : slot = some target := filled
    obtain rfl : slot' = some target' := filled'
    exact ⟨[target, target'], rfl, rfl,
      List.forall_mem_cons.mpr ⟨typed, List.forall_mem_singleton.mpr typed'⟩⟩
  | _ => cases branch

theorem targetSlots_subset (held : Instruction) : targetSlots held ⊆ held.operands := by
  rw [targetSlots]
  split
  · exact List.Subset.refl _
  · exact List.Sublist.subset (List.tail_sublist _)
  · exact List.nil_subset _

/-- The type of blocks is that of no literal, global or function. -/
theorem InScope.belongs (scope : m.InScope function value) (typed : m.typeOf value = .label) :
    value ∈ m.parametersOf function ∨ value ∈ m.blocksOf function ∨ value ∈ m.bodyOf function := by
  cases scope with
  | literal found =>
    rw [typeOf_literal found] at typed
    rename_i literal
    cases literal <;> cases typed
  | global found =>
    rw [typeOf_global found] at typed
    cases typed
  | function found =>
    rw [typeOf_function found] at typed
    cases typed
  | parameter member => exact .inl member
  | block member => exact .inr (.inl member)
  | instruction member => exact .inr (.inr member)

/-- Of what belongs to a function, the blocks are listed as such. -/
theorem Linked.mem_blocksOf_of_belongs (linked : Linked m) (isBlock : (m.block? value).isSome)
    (belongs : value ∈ m.parametersOf function ∨ value ∈ m.blocksOf function ∨
      value ∈ m.bodyOf function) : value ∈ m.blocksOf function := by
  obtain ⟨content, known⟩ := Option.isSome_iff_exists.mp isBlock
  rcases belongs with parameter | own | instruction
  · obtain ⟨_, other, _⟩ := linked.parameter_of_mem parameter
    rw [Module.parameter?, content?_of_block? known] at other
    cases other
  · exact own
  · obtain ⟨block, _, listed⟩ := List.mem_flatMap.mp instruction
    have placed := linked.place listed
    rw [blockOf?, instruction?, content?_of_block? known] at placed
    cases placed

theorem Built.targets (built : Built m) (valid : m.validate = .ok ())
    (member : function ∈ m.functions) (inside : block ∈ m.blocksOf function)
    (listed : id ∈ m.instructionsOf block) (found : m.instruction? id = some held)
    (branch : held.opcode.isBranch = true) : ∃ targets, m.Targets function block held targets := by
  obtain ⟨position, place⟩ := List.mem_iff_getElem?.mp listed
  have accepts := accepts_of_validate valid member inside place found
  obtain ⟨targets, slots, count, label⟩ := exists_labels accepts (built.shaped id held found) branch
  have named : ∀ target ∈ targets, some target ∈ held.operands := by
    intro target among
    refine targetSlots_subset held ?_
    rw [slots]
    exact List.mem_map_of_mem among
  refine ⟨targets, slots, count, label, fun target among => ?_, fun target among first => ?_, ?_⟩
  · have used : target ∈ held.values :=
      List.mem_filterMap.mpr ⟨some target, named target among, rfl⟩
    have typed := label target among
    exact (built.inScope accepts used (present_of_typeOf (by rw [typed]; exact nofun))).belongs typed
  · exact built.entry_not_mem_operands valid member first found branch (named target among)
  · have terminates : m.hasOpcode Opcode.isTerminator id = true := by
      rw [hasOpcode, opcode?, found]
      cases kind : held.opcode <;> simp_all [Opcode.isBranch, Opcode.isTerminator]
    have last := getLast?_of_isTerminator valid member inside listed terminates
    have filled : (targets.map some).filterMap (fun slot : Slot => slot) = targets := by
      rw [List.filterMap_map]
      exact List.filterMap_some
    rw [successors_of inside, Module.successors, last, Option.bind_some, found]
    show List.filter _ (List.filter _ ((targetSlots held).filterMap fun slot : Slot => slot)) = _
    rw [slots, filled, List.filter_filter]
    refine List.filter_congr fun target _ => ?_
    cases own : (m.blocksOf function).contains target with
    | false => rfl
    | true =>
      obtain ⟨content, isBlock, _⟩ := built.linked.owner (List.contains_iff_mem.mp own)
      rw [isBlock]
      rfl

/-- **What the control-flow graph knows of an accepted branch**: its targets that are blocks, none
of them the entry. It has all edges of the branch exactly when all targets are blocks. -/
theorem Built.exists_targets (built : Built m) (valid : m.validate = .ok ())
    (member : function ∈ m.functions) (inside : block ∈ m.blocksOf function)
    (listed : id ∈ m.instructionsOf block) (found : m.instruction? id = some held)
    (branch : held.opcode.isBranch = true) :
    ∃ targets, m.Targets function block held targets ∧
      ((Cfg.of m function).successors block = targets ↔
        ∀ target ∈ targets, (m.block? target).isSome) := by
  obtain ⟨targets, named⟩ := built.targets valid member inside listed found branch
  refine ⟨targets, named, ?_⟩
  rw [named.edges, List.filter_eq_self]
  refine forall₂_congr fun target among => ?_
  rw [List.contains_iff_mem]
  constructor
  · intro own
    obtain ⟨content, isBlock, _⟩ := built.linked.owner own
    rw [isBlock]
    rfl
  · intro isBlock
    exact built.linked.mem_blocksOf_of_belongs isBlock (named.belongs target among)

/-- A function whose conditional branch goes to a block or to where its second parameter says. -/
def straySteps : List Operation :=
  [.addFunction ⟨[.int 1, .label], .void, false⟩ "f",
    .addBlock ⟨0⟩ .finish "entry", .addBlock ⟨0⟩ .finish "done",
    .insert ⟨some (.finish ⟨3⟩)⟩ (.condbr ⟨1⟩ ⟨4⟩ ⟨4⟩) "",
    .insert ⟨some (.finish ⟨4⟩)⟩ (.ret none) "",
    .replaceOperand ⟨5⟩ 2 (some ⟨2⟩)]

def stray : Module := builtBy "m" straySteps

theorem validate_stray : stray.validate = .ok () := by
  have functions : stray.functions = [⟨0⟩] := by decide +kernel
  have flow : (Cfg.of stray ⟨0⟩).nodes = [(⟨3⟩, [⟨4⟩]), (⟨4⟩, [])] := by decide +kernel
  have dominators : DominatorTree.of (Cfg.mk ⟨0⟩ [(⟨3⟩, [⟨4⟩]), (⟨4⟩, [])]).graph =
      ⟨[⟨3⟩, ⟨4⟩], [none, some 0]⟩ :=
    DominatorTree.of_eq (by decide +kernel) (by decide +kernel) (by decide +kernel)
  exact validate_of_checks functions (by decide +kernel) (context_eq flow dominators)
    (by decide +kernel) (by decide +kernel)

/-- The graph has one edge for the conditional branch: one of its two targets is a parameter. -/
theorem exists_targets_stray : ∃ targets,
    stray.Targets ⟨0⟩ ⟨3⟩ ⟨some ⟨3⟩, .condbr, [some ⟨1⟩, some ⟨4⟩, some ⟨2⟩]⟩ targets ∧
      ((Cfg.of stray ⟨0⟩).successors ⟨3⟩ = targets ↔
        ∀ target ∈ targets, (stray.block? target).isSome) := by
  have found : stray.instruction? ⟨5⟩ =
      some ⟨some ⟨3⟩, .condbr, [some ⟨1⟩, some ⟨4⟩, some ⟨2⟩]⟩ := rfl
  exact Built.exists_targets (built_builtBy "m" straySteps) validate_stray (by decide +kernel)
    (by decide +kernel) (by decide +kernel : ⟨5⟩ ∈ stray.instructionsOf ⟨3⟩) found rfl

/-- **An accepted conditional branch with one edge**: its second target is no block. -/
theorem branch_without_edge : Built stray ∧ stray.validate = .ok () ∧
    stray.operandsOf ⟨5⟩ = [some ⟨1⟩, some ⟨4⟩, some ⟨2⟩] ∧ stray.blockOf? ⟨5⟩ = some ⟨3⟩ ∧
    stray.opcode? ⟨5⟩ = some .condbr ∧ stray.block? ⟨2⟩ = none ∧
    (Cfg.of stray ⟨0⟩).successors ⟨3⟩ = [⟨4⟩] :=
  ⟨built_builtBy "m" straySteps, validate_stray, by decide +kernel, by decide +kernel,
    by decide +kernel, by decide +kernel, by decide +kernel⟩

end Module

end SsaAmd64
