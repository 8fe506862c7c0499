/-
**Accepted modules read defined values only.**

Along every path that control may take from the entry of a function, an instruction reads what has
been computed before it, and a phi finds for the edge that was taken one value, which has been
computed as well. The checks look at dominators; what they mean for paths is that the dominator tree
is exact.

* `Module.ReadsDefined`: what is read along a walk through blocks has been defined on it;
* `Module.exists_of_dominates`: a dominator of a block lies on the walk to it;
* `Module.reads_defined`: this holds of all paths through an accepted module.
-/

import SsaAmd64.Ir.Sample
import SsaAmd64.Proofs.Flow.Dominators
import SsaAmd64.Proofs.Flow.Postorder
import SsaAmd64.Proofs.Validation.Accepted

namespace SsaAmd64

namespace Module

/-- **Whatever is read along a walk through blocks has been defined on it before.** -/
structure ReadsDefined (m : Module) (walk : List ValueId) : Prop where
  /-- An operand that is an instruction stands before its use in the same block, or in a block that
  the walk has passed. -/
  operands : ∀ {index position : Nat} {block id value : ValueId} {instruction : Instruction},
    walk[index]? = some block → (m.instructionsOf block)[position]? = some id →
    m.instruction? id = some instruction → instruction.opcode.isPhi = false →
    value ∈ instruction.values → (m.instruction? value).isSome →
    ∃ source, m.blockOf? value = some source ∧
      ((source = block ∧ ∃ earlier < position, (m.instructionsOf block)[earlier]? = some value) ∨
        ∃ before < index, walk[before]? = some source)
  /-- A phi has one pair for the edge that the walk takes, and the block of its value lies on the
  walk up to there. -/
  incoming : ∀ {index : Nat} {origin block id : ValueId} {instruction : Instruction},
    walk[index]? = some origin → walk[index + 1]? = some block → id ∈ m.instructionsOf block →
    m.instruction? id = some instruction → instruction.opcode.isPhi = true →
    ∃ value, instruction.incoming.filter (fun pair => pair.2 = some origin) =
        [(some value, some origin)] ∧
      ((m.instruction? value).isSome → ∃ source, m.blockOf? value = some source ∧
        ∃ before ≤ index, walk[before]? = some source)

variable {m : Module} {function block source target value id : ValueId} {walk : List ValueId}
variable {index position : Nat} {instruction : Instruction}

theorem vertices_graph (m : Module) (function : ValueId) :
    (Cfg.of m function).graph.vertices = m.blocksOf function := by
  show ((m.blocksOf function).map _).map Prod.fst = m.blocksOf function
  rw [List.map_map]
  exact List.map_id _

theorem isReachable_iff (m : Module) (function block : ValueId) :
    (RuleContext.of m function).tree.isReachable block = true ↔
      (Cfg.of m function).graph.Reachable block :=
  DominatorTree.position?_isSome_iff _ block

theorem pathTo_upTo (path : (Cfg.of m function).graph.PathTo target walk)
    (here : walk[index]? = some block) :
    (Cfg.of m function).graph.PathTo block (walk.take (index + 1)) := by
  obtain ⟨entry, first, path⟩ := path
  exact ⟨entry, first, path.upTo here⟩

/-- A dominator of a block lies on every walk to it. -/
theorem exists_of_dominates (path : (Cfg.of m function).graph.PathTo target walk)
    (here : walk[index]? = some block)
    (dominates : (RuleContext.of m function).tree.dominates source block = true) :
    ∃ before ≤ index, walk[before]? = some source := by
  obtain ⟨_, passes⟩ := (DominatorTree.dominates_iff _ source block).mp dominates
  obtain ⟨before, less, place⟩ :=
    List.mem_take_iff_getElem.mp (passes _ (pathTo_upTo path here))
  exact ⟨before, by omega, by rw [← place]; exact List.getElem?_eq_getElem _⟩

theorem getElem?_of_position? (found : m.position? block id = some position) :
    (m.instructionsOf block)[position]? = some id := by
  obtain ⟨inside, same, _⟩ := List.findIdx?_eq_some_iff_getElem.mp found
  rw [List.getElem?_eq_getElem inside]
  exact congrArg some (of_decide_eq_true same)

/-- What is in an incoming pair is in a slot. -/
theorem mem_values_of_incoming {pair : Slot × Slot} (member : pair ∈ instruction.incoming)
    (filled : pair.1 = some value) : value ∈ instruction.values := by
  have inSlots : ∀ slots : List Slot, pair ∈ Instruction.pairUp slots → some value ∈ slots := by
    intro slots
    induction slots using Instruction.pairUp.induct with
    | case1 first second rest ih =>
      intro among
      rw [Instruction.pairUp] at among
      rcases List.mem_cons.mp among with rfl | later
      · rw [← filled]
        exact List.mem_cons_self
      · exact List.mem_cons_of_mem _ (List.mem_cons_of_mem _ (ih later))
    | case2 slots short =>
      intro among
      rw [Instruction.pairUp] at among
      · cases among
      · exact short
  rw [Instruction.incoming] at member
  split at member
  · exact List.mem_filterMap.mpr ⟨some value, inSlots _ member, rfl⟩
  · cases member

/-- Among pairs with distinct blocks one names a block. -/
theorem filter_origin {values : List (ValueId × ValueId)} (nodup : (values.map Prod.snd).Nodup)
    (member : (value, block) ∈ values) :
    (values.map fun pair => (some pair.1, some pair.2)).filter
      (fun pair : Slot × Slot => pair.2 = some block) = [(some value, some block)] := by
  induction values with
  | nil => cases member
  | cons first others ih =>
    rw [List.map_cons, List.nodup_cons] at nodup
    rw [List.map_cons]
    rcases List.mem_cons.mp member with rfl | later
    · rw [List.filter_cons_of_pos (by simp), List.filter_eq_nil_iff.mpr]
      intro pair among
      obtain ⟨other, inOthers, rfl⟩ := List.mem_map.mp among
      have different : other.2 ≠ block := fun same =>
        nodup.1 (List.mem_map.mpr ⟨other, inOthers, same⟩)
      simpa using different
    · have different : first.2 ≠ block := fun same =>
        nodup.1 (List.mem_map.mpr ⟨(value, block), later, same.symm⟩)
      rw [List.filter_cons_of_neg (by simpa using different)]
      exact ih nodup.2 later

/-- **An accepted module reads defined values only, on every path from the entry of a function.** -/
theorem reads_defined (valid : m.validate = .ok ()) (member : function ∈ m.functions)
    (path : (Cfg.of m function).graph.PathTo target walk) : m.ReadsDefined walk := by
  have inside : ∀ {index : Nat} {block}, walk[index]? = some block → block ∈ m.blocksOf function := by
    intro index block here
    rw [← vertices_graph]
    exact (path.reachable (List.mem_of_getElem? here)).mem_vertices
  have reachable : ∀ {index : Nat} {block}, walk[index]? = some block →
      (RuleContext.of m function).tree.isReachable block = true := fun here =>
    (isReachable_iff m function _).mpr (path.reachable (List.mem_of_getElem? here))
  constructor
  case operands =>
    intro index position block id value instruction here place found ordinary among isInstruction
    have accepts := accepts_of_validate valid member (inside here) place found
    obtain ⟨source, attached⟩ := accepts.attached among isInstruction
    refine ⟨source, attached, ?_⟩
    have available := accepts.available ordinary (reachable here) among
    rw [RuleContext.isAvailable, attached] at available
    by_cases same : source = block
    · left
      refine ⟨same, ?_⟩
      simp only [if_pos same] at available
      cases known : m.position? block value with
      | none =>
        simp [RuleContext.of, known] at available
      | some earlier =>
        refine ⟨earlier, ?_, getElem?_of_position? known⟩
        simpa [RuleContext.of, known] using available
    · right
      simp only [if_neg same] at available
      obtain ⟨before, le, place⟩ := exists_of_dominates path here available
      refine ⟨before, Nat.lt_of_le_of_ne le ?_, place⟩
      rintro rfl
      exact same (Option.some.inj (place.symm.trans here))
  case incoming =>
    intro index origin block id instruction here next listed found isPhi
    obtain ⟨type, phi⟩ : ∃ type, instruction.opcode = .phi type := by
      cases opcode : instruction.opcode <;> simp_all [Opcode.isPhi]
    obtain ⟨position, place⟩ := List.mem_iff_getElem?.mp listed
    have accepts := accepts_of_validate valid member (inside next) place found
    obtain ⟨values, shape, nodup, covered, accepted⟩ := accepts.pairs phi
    obtain ⟨entry, first, walked⟩ := path
    have edge := walked.edge_of_follows here next
    have among : origin ∈ (Cfg.of m function).predecessors block :=
      ((Cfg.of m function).graph.mem_predecessors_iff block origin).mpr ⟨edge.1, edge.2.2⟩
    obtain ⟨⟨value, origin⟩, pair, rfl⟩ := List.mem_map.mp (covered origin among)
    refine ⟨value, by rw [shape]; exact filter_origin nodup pair, fun isInstruction => ?_⟩
    have used : value ∈ instruction.values := by
      have listed : (some value, some origin) ∈ instruction.incoming := by
        rw [shape]
        exact List.mem_map_of_mem pair
      exact mem_values_of_incoming listed rfl
    obtain ⟨source, attached⟩ := accepts.attached used isInstruction
    refine ⟨source, attached, ?_⟩
    have available := (accepted _ pair).available
    rw [RuleContext.isAvailableAtEnd] at available
    simp only [attached, reachable here, Bool.not_true, Bool.false_or, Bool.or_eq_true,
      decide_eq_true_eq] at available
    rcases available with rfl | dominates
    · exact ⟨index, Nat.le_refl _, here⟩
    · exact exists_of_dominates ⟨entry, first, walked⟩ here dominates

/-! ### Evaluating the checks -/

/-- The context of a function, from its control flow and its dominator tree. -/
theorem context_eq {nodes : List (ValueId × List ValueId)} {tree : DominatorTree ValueId}
    (flow : (Cfg.of m function).nodes = nodes)
    (dominators : DominatorTree.of (Cfg.mk function nodes).graph = tree) :
    RuleContext.of m function = ⟨m, function, ⟨function, nodes⟩, tree⟩ := by
  subst flow dominators
  rfl

/-- A module with one function is accepted when all its checks pass. -/
theorem validate_of_checks {context : RuleContext} (functions : m.functions = [function])
    (shape : m.checkEmptyBlocks = .ok () ∧ m.checkEarlyTerminators = .ok () ∧
      m.checkTermination = .ok () ∧ m.checkBranchToEntry = .ok () ∧ m.checkEntryPhi = .ok ())
    (given : RuleContext.of m function = context) (body : context.checkBody = .ok ())
    (names : m.checkFunctionNames = .ok () ∧ m.checkGlobalNames = .ok () ∧
      m.checkGlobals = .ok ()) : m.validate = .ok () := by
  have instructions : m.checkInstructions = .ok () := by
    unfold checkInstructions
    rw [functions]
    show (RuleContext.of m function).checkBody >>= (fun _ => Except.ok ()) = Except.ok ()
    rw [given, body]
    rfl
  obtain ⟨first, second, third, fourth, fifth⟩ := shape
  obtain ⟨sixth, seventh, last⟩ := names
  unfold validate
  rw [first, second, third, fourth, fifth, instructions, sixth, seventh, last]
  rfl

/-- The control flow of the loop of the Fibonacci numbers, and its dominators. -/
theorem context_fib : RuleContext.of Sample.fib ⟨0⟩ = ⟨Sample.fib, ⟨0⟩,
    ⟨⟨0⟩, [(⟨2⟩, [⟨3⟩]), (⟨3⟩, [⟨3⟩, ⟨4⟩]), (⟨4⟩, [])]⟩,
    ⟨[⟨2⟩, ⟨3⟩, ⟨4⟩], [none, some 0, some 1]⟩⟩ := by
  have flow : (Cfg.of Sample.fib ⟨0⟩).nodes =
      [(⟨2⟩, [⟨3⟩]), (⟨3⟩, [⟨3⟩, ⟨4⟩]), (⟨4⟩, [])] := by decide +kernel
  have dominators : DominatorTree.of (Cfg.mk ⟨0⟩
      [(⟨2⟩, [⟨3⟩]), (⟨3⟩, [⟨3⟩, ⟨4⟩]), (⟨4⟩, [])]).graph =
        ⟨[⟨2⟩, ⟨3⟩, ⟨4⟩], [none, some 0, some 1]⟩ :=
    DominatorTree.of_eq (by decide +kernel) (by decide +kernel) (by decide +kernel)
  exact context_eq flow dominators

/-- The loop of the Fibonacci numbers is accepted. -/
theorem validate_fib : Sample.fib.validate = .ok () :=
  validate_of_checks (by decide +kernel) (by decide +kernel) context_fib (by decide +kernel)
    (by decide +kernel)

/-- Along a walk that stays in the loop for a while, the values of the loop are defined before they
are read. -/
theorem reads_defined_fib : Sample.fib.ReadsDefined [⟨2⟩, ⟨3⟩, ⟨3⟩, ⟨4⟩] := by
  have member : ⟨0⟩ ∈ Sample.fib.functions := by decide +kernel
  have first : (Cfg.of Sample.fib ⟨0⟩).graph.entry? = some ⟨2⟩ := by decide +kernel
  have enter : (Cfg.of Sample.fib ⟨0⟩).graph.Edge ⟨2⟩ ⟨3⟩ :=
    ⟨by decide +kernel, by decide +kernel, by decide +kernel⟩
  have again : (Cfg.of Sample.fib ⟨0⟩).graph.Edge ⟨3⟩ ⟨3⟩ :=
    ⟨by decide +kernel, by decide +kernel, by decide +kernel⟩
  have leave : (Cfg.of Sample.fib ⟨0⟩).graph.Edge ⟨3⟩ ⟨4⟩ :=
    ⟨by decide +kernel, by decide +kernel, by decide +kernel⟩
  have path := ((Path.start.step enter).step again).step leave
  exact reads_defined validate_fib member ⟨⟨2⟩, first, path⟩

end Module

end SsaAmd64
