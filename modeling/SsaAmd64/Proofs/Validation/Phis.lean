/-
**Which phis are accepted.**

The rule of phis goes through the pairs in order and stops at the first fault, so which fault is
reported depends on their order. Whether there is one does not: the pairs have to be complete,
their blocks have to be the predecessors, each of them once, and each value has to be of the right
type and available. Nor does it matter how often control may pass from a predecessor to the block.

* `Module.LegalPhi`: what the rule asks of a phi;
* `RuleContext.checkPhi_iff`: a phi passes the rule exactly if it is legal;
* `Cfg.SameEdges`: control flow with the same edges, each of them any number of times;
* `Module.checkPhi_exact`: the rule, whatever the order of the pairs and the number of the edges.
-/

import SsaAmd64.Proofs.Validation.DefinedReads
import SsaAmd64.Proofs.Validation.Scope

namespace SsaAmd64

/-! ### Control flow with repeated edges -/

namespace Cfg

/-- **Control flow with the same edges**: the same blocks in the same order, each of which leads to
the same blocks, however often. -/
def SameEdges (cfg other : Cfg) : Prop :=
  List.Forall₂ (fun node copy => node.1 = copy.1 ∧ ∀ target, target ∈ node.2 ↔ target ∈ copy.2)
    cfg.nodes other.nodes

namespace SameEdges

variable {cfg other : Cfg}

variable (same : cfg.SameEdges other)
include same

theorem symm : other.SameEdges cfg := by
  refine List.Forall₂.flip (same.imp fun node copy alike => ?_)
  exact ⟨alike.1.symm, fun target => (alike.2 target).symm⟩

theorem blocks : cfg.blocks = other.blocks :=
  map_eq_of_forall₂ same fun _ _ alike => alike.1

theorem mem_successors_iff (source target : ValueId) :
    target ∈ cfg.successors source ↔ target ∈ other.successors source := by
  unfold Cfg.successors
  unfold SameEdges at same
  generalize cfg.nodes = nodes, other.nodes = copies at same ⊢
  induction same with
  | nil => exact Iff.rfl
  | @cons node copy nodes copies alike _ ih =>
    rw [List.lookup_cons, List.lookup_cons, alike.1]
    cases source == copy.1 with
    | true => exact alike.2 target
    | false => exact ih

theorem edge : cfg.graph.Edge = other.graph.Edge := by
  funext source target
  have vertices : cfg.graph.vertices = other.graph.vertices := same.blocks
  unfold Digraph.Edge
  rw [vertices]
  exact propext (and_congr_right' (and_congr_right' (same.mem_successors_iff source target)))

theorem pathTo : cfg.graph.PathTo = other.graph.PathTo := by
  have entry : cfg.graph.entry? = other.graph.entry? := congrArg List.head? same.blocks
  unfold Digraph.PathTo
  rw [same.edge, entry]

theorem reachable : cfg.graph.Reachable = other.graph.Reachable := by
  unfold Digraph.Reachable
  rw [same.pathTo]

theorem mem_predecessors_iff (block source : ValueId) :
    source ∈ cfg.predecessors block ↔ source ∈ other.predecessors block := by
  have vertices : cfg.graph.vertices = other.graph.vertices := same.blocks
  unfold Cfg.predecessors
  rw [Digraph.mem_predecessors_iff, Digraph.mem_predecessors_iff, vertices]
  exact and_congr_right' (same.mem_successors_iff source block)

end SameEdges

end Cfg

/-! ### Legal phis -/

/-- **A phi as it has to be**, of a type and in a block, where control flows in a given way. -/
structure Module.LegalPhi (m : Module) (cfg : Cfg) (block : ValueId) (type : Ty)
    (pairs : List (Slot × Slot)) : Prop where
  /-- Each pair holds a value and a block. -/
  complete : ∀ pair ∈ pairs, ∃ value origin, pair = (some value, some origin) ∧
    (m.block? origin).isSome
  distinct : (pairs.map Prod.snd).Nodup
  /-- The blocks are the predecessors. -/
  covering : ∀ origin, some origin ∈ pairs.map Prod.snd ↔ origin ∈ cfg.predecessors block
  typed : ∀ value origin, (some value, origin) ∈ pairs → m.typeOf value = type
  /-- An instruction comes from the predecessor or from a block that lies on all ways to it. -/
  available : ∀ value origin source, (some value, some origin) ∈ pairs →
    cfg.graph.Reachable origin → m.blockOf? value = some source →
      source = origin ∨ ∀ walk, cfg.graph.PathTo origin walk → source ∈ walk

variable {m : Module} {cfg other : Cfg} {block : ValueId} {type : Ty}
variable {pairs others : List (Slot × Slot)}

theorem Module.LegalPhi.congr (legal : m.LegalPhi cfg block type pairs)
    (same : cfg.SameEdges other) (permuted : pairs.Perm others) :
    m.LegalPhi other block type others where
  complete pair member := legal.complete pair (permuted.mem_iff.mpr member)
  distinct := (permuted.map Prod.snd).nodup_iff.mp legal.distinct
  covering origin := by
    rw [← (permuted.map Prod.snd).mem_iff, legal.covering, same.mem_predecessors_iff]
  typed value origin member := legal.typed value origin (permuted.mem_iff.mpr member)
  available value origin source member := by
    rw [← same.reachable, ← same.pathTo]
    exact legal.available value origin source (permuted.mem_iff.mpr member)

namespace RuleContext

/-- The context of a function in which control flows in a given way. -/
def withFlow (m : Module) (function : ValueId) (cfg : Cfg) : RuleContext :=
  ⟨m, function, cfg, cfg.dominatorTree⟩

/-! ### What passes -/

section Pairs

variable {context : RuleContext} {predecessors seen : List ValueId} {index : Nat}
variable {value origin : ValueId}

theorem checkPair_of_acceptsPair (accepted : context.AcceptsPair type predecessors value origin)
    (fresh : origin ∉ seen) :
    context.checkPair type predecessors seen index (some value, some origin) = .ok origin := by
  obtain ⟨held, found⟩ := Option.isSome_iff_exists.mp accepted.isBlock
  have label : Fault.demandLabel (context.subject.typeOf origin) = .ok () :=
    Fault.ifNot_eq_ok_iff.mpr (decide_eq_true (Module.typeOf_block found))
  have predecessor : predecessors.contains origin = true :=
    List.contains_iff_mem.mpr accepted.predecessor
  have unseen : (!seen.contains origin) = true := by
    simpa using fresh
  have typed : Fault.demandSame type (context.subject.typeOf value) = .ok () :=
    Fault.ifNot_eq_ok_iff.mpr (decide_eq_true accepted.typed)
  unfold checkPair
  simp only [label, typed, Fault.ifNot_eq_ok_iff.mpr accepted.isBlock,
    Fault.ifNot_eq_ok_iff.mpr predecessor, Fault.ifNot_eq_ok_iff.mpr unseen,
    Fault.ifNot_eq_ok_iff.mpr accepted.available]
  rfl

/-- Pairs whose blocks differ from one another, and from those before, pass one after the other. -/
theorem checkPairs_of_acceptsPair {values : List (ValueId × ValueId)}
    (accepted : ∀ pair ∈ values, context.AcceptsPair type predecessors pair.1 pair.2)
    (distinct : (seen ++ values.map Prod.snd).Nodup) :
    context.checkPairs type predecessors seen index
      (values.map fun pair => (some pair.1, some pair.2)) = .ok (seen ++ values.map Prod.snd) := by
  induction values generalizing seen index with
  | nil =>
    rw [List.map_nil, List.map_nil, List.append_nil]
    rfl
  | cons pair values ih =>
    obtain ⟨here, later⟩ := List.forall_mem_cons.mp accepted
    have fresh : pair.2 ∉ seen := fun member =>
      List.disjoint_of_nodup_append distinct member List.mem_cons_self
    rw [List.map_cons, checkPairs, checkPair_of_acceptsPair here fresh]
    rw [List.map_cons, ← List.singleton_append, ← List.append_assoc] at distinct ⊢
    exact ih later distinct

/-- **The rule of phis asks for one accepted pair for each predecessor.** -/
theorem checkPhi_eq_ok_iff : context.checkPhi block type pairs = .ok () ↔
    ∃ values : List (ValueId × ValueId),
      pairs = values.map (fun pair => (some pair.1, some pair.2)) ∧
      (values.map Prod.snd).Nodup ∧
      (∀ origin ∈ context.cfg.predecessors block, origin ∈ values.map Prod.snd) ∧
      ∀ pair ∈ values, context.AcceptsPair type (context.cfg.predecessors block) pair.1 pair.2 := by
  refine ⟨pairs_of_checkPhi, ?_⟩
  rintro ⟨values, rfl, distinct, covered, accepted⟩
  have passed : context.checkPairs type (context.cfg.predecessors block) [] 0 _ =
      .ok ([] ++ values.map Prod.snd) := checkPairs_of_acceptsPair accepted distinct
  have uncovered : (context.cfg.predecessors block).find?
      (fun origin => !(values.map Prod.snd).contains origin) = none := by
    refine List.find?_eq_none.mpr fun origin member => ?_
    simpa using covered origin member
  unfold checkPhi
  simp only [passed, bind, Except.bind, List.nil_append, uncovered]
  rfl

end Pairs

/-- A value is available at the end of a block that cannot be reached, or at the end of which every
way has passed through the block of the value. -/
theorem isAvailableAtEnd_iff (m : Module) (function : ValueId) (cfg : Cfg)
    (value origin : ValueId) :
    (withFlow m function cfg).isAvailableAtEnd value origin = true ↔
      ∀ source, cfg.graph.Reachable origin → m.blockOf? value = some source →
        source = origin ∨ ∀ walk, cfg.graph.PathTo origin walk → source ∈ walk := by
  have reached : cfg.dominatorTree.isReachable origin = true ↔ cfg.graph.Reachable origin :=
    DominatorTree.position?_isSome_iff cfg.graph origin
  unfold isAvailableAtEnd
  dsimp only [withFlow]
  cases m.blockOf? value with
  | none => simp
  | some source =>
    have dominates : cfg.dominatorTree.dominates source origin = true ↔ _ :=
      DominatorTree.dominates_iff cfg.graph source origin
    show (!cfg.dominatorTree.isReachable origin || decide (source = origin) ||
      cfg.dominatorTree.dominates source origin) = true ↔ _
    constructor
    · rintro available _ reachable ⟨⟩
      simp only [reached.mpr reachable, Bool.not_true, Bool.false_or, Bool.or_eq_true,
        decide_eq_true_eq] at available
      exact available.imp_right fun passes => (dominates.mp passes).2
    · intro lawful
      by_cases reachable : cfg.graph.Reachable origin
      · rcases lawful source reachable rfl with same | passes
        · simp [same]
        · simp [dominates.mpr ⟨reachable, passes⟩]
      · simp [Bool.eq_false_iff.mpr (reached.not.mpr reachable)]

/-! ### Legal phis pass -/

theorem map_snd_filled (values : List (ValueId × ValueId)) :
    (values.map fun pair => ((some pair.1, some pair.2) : Slot × Slot)).map Prod.snd =
      (values.map Prod.snd).map some := by
  rw [List.map_map, List.map_map]
  rfl

/-- A legal phi has a value and a block in each of its pairs. -/
theorem exists_values_of_legalPhi (legal : m.LegalPhi cfg block type pairs) :
    ∃ values : List (ValueId × ValueId),
      pairs = values.map fun pair => (some pair.1, some pair.2) := by
  have complete : pairs ∈ Set.range
      (List.map fun pair : ValueId × ValueId => ((some pair.1, some pair.2) : Slot × Slot)) := by
    rw [Set.range_list_map]
    intro pair member
    obtain ⟨value, origin, rfl, _⟩ := legal.complete pair member
    exact ⟨(value, origin), rfl⟩
  obtain ⟨values, same⟩ := complete
  exact ⟨values, same.symm⟩

/-- Pairs that are filled make a legal phi exactly if there is one for each predecessor and all are
accepted. -/
theorem legalPhi_iff (m : Module) (function : ValueId) (cfg : Cfg) (block : ValueId) (type : Ty)
    (values : List (ValueId × ValueId)) :
    m.LegalPhi cfg block type (values.map fun pair => (some pair.1, some pair.2)) ↔
      (values.map Prod.snd).Nodup ∧
      (∀ origin ∈ cfg.predecessors block, origin ∈ values.map Prod.snd) ∧
      ∀ pair ∈ values,
        (withFlow m function cfg).AcceptsPair type (cfg.predecessors block) pair.1 pair.2 := by
  have injective := Option.some_injective ValueId
  have listed : ∀ value origin, ((some value, some origin) : Slot × Slot) ∈
      values.map (fun pair => (some pair.1, some pair.2)) ↔ (value, origin) ∈ values := by
    simp
  constructor
  · intro legal
    have distinct := legal.distinct
    have covering := legal.covering
    simp only [map_snd_filled, List.mem_map_of_injective injective] at distinct covering
    refine ⟨distinct.of_map _, fun origin => (covering origin).mpr, ?_⟩
    rintro ⟨value, origin⟩ inside
    have member := (listed value origin).mpr inside
    constructor
    case isBlock =>
      obtain ⟨_, _, same, isBlock⟩ := legal.complete _ member
      cases same
      exact isBlock
    case predecessor => exact (covering origin).mp (List.mem_map_of_mem inside)
    case typed => exact (legal.typed value _ member).symm
    case available =>
      refine (isAvailableAtEnd_iff m function cfg value origin).mpr fun source => ?_
      exact legal.available value origin source member
  · rintro ⟨distinct, covered, accepted⟩
    constructor
    case complete =>
      intro pair member
      obtain ⟨⟨value, origin⟩, inside, rfl⟩ := List.mem_map.mp member
      exact ⟨value, origin, rfl, (accepted _ inside).isBlock⟩
    case distinct =>
      rw [map_snd_filled]
      exact distinct.map injective
    case covering =>
      intro origin
      rw [map_snd_filled, List.mem_map_of_injective injective]
      refine ⟨fun member => ?_, covered origin⟩
      obtain ⟨pair, inside, rfl⟩ := List.mem_map.mp member
      exact (accepted pair inside).predecessor
    case typed =>
      intro value origin member
      obtain ⟨⟨_, _⟩, inside, same⟩ := List.mem_map.mp member
      cases same
      exact (accepted _ inside).typed.symm
    case available =>
      intro value origin source member
      have available := (accepted _ ((listed value origin).mp member)).available
      exact (isAvailableAtEnd_iff m function cfg value origin).mp available source

/-- **A phi passes the rule exactly if it is legal**, for any function and any control flow. -/
theorem checkPhi_iff (m : Module) (function : ValueId) (cfg : Cfg) (block : ValueId) (type : Ty)
    (pairs : List (Slot × Slot)) :
    (withFlow m function cfg).checkPhi block type pairs = .ok () ↔
      m.LegalPhi cfg block type pairs := by
  rw [checkPhi_eq_ok_iff]
  constructor
  · rintro ⟨values, rfl, passed⟩
    exact (legalPhi_iff m function cfg block type values).mpr passed
  · intro legal
    obtain ⟨values, rfl⟩ := exists_values_of_legalPhi legal
    exact ⟨values, rfl, (legalPhi_iff m function cfg block type values).mp legal⟩

end RuleContext

namespace Module

/-- **The rule of phis accepts exactly the legal phis**, in every function of every module. The
verdict is the same if the pairs come in another order and if edges are repeated. -/
theorem checkPhi_exact (m : Module) (function block : ValueId) (type : Ty)
    (pairs : List (Slot × Slot)) :
    ((RuleContext.of m function).checkPhi block type pairs = .ok () ↔
      m.LegalPhi (Cfg.of m function) block type pairs) ∧
    ∀ cfg others, (Cfg.of m function).SameEdges cfg → pairs.Perm others →
      ((RuleContext.withFlow m function cfg).checkPhi block type others = .ok () ↔
        (RuleContext.of m function).checkPhi block type pairs = .ok ()) := by
  have exact := RuleContext.checkPhi_iff m function (Cfg.of m function) block type pairs
  refine ⟨exact, fun cfg others same permuted => ?_⟩
  rw [RuleContext.checkPhi_iff]
  refine Iff.trans ⟨fun legal => ?_, fun legal => ?_⟩ exact.symm
  · exact legal.congr same.symm permuted.symm
  · exact legal.congr same permuted

/-- The control flow of the loop of the Fibonacci numbers, with two ways in and two ways out. -/
def tangledFlow : Cfg :=
  ⟨⟨0⟩, [(⟨2⟩, [⟨3⟩, ⟨3⟩]), (⟨3⟩, [⟨4⟩, ⟨3⟩, ⟨4⟩]), (⟨4⟩, [])]⟩

theorem sameEdges_fib : (Cfg.of Sample.fib ⟨0⟩).SameEdges tangledFlow := by
  have flow : Cfg.of Sample.fib ⟨0⟩ =
      ⟨⟨0⟩, [(⟨2⟩, [⟨3⟩]), (⟨3⟩, [⟨3⟩, ⟨4⟩]), (⟨4⟩, [])]⟩ := congrArg RuleContext.cfg context_fib
  rw [flow]
  refine .cons ⟨rfl, fun target => ?_⟩ (.cons ⟨rfl, fun target => ?_⟩
    (.cons ⟨rfl, fun _ => .rfl⟩ .nil))
  · simp
  · simp only [List.mem_cons, List.not_mem_nil, or_false]
    exact ⟨Or.inr, Or.rec .inr id⟩

/-- A phi of the loop, with its pairs in both orders. -/
theorem checkPhi_exact_fib : Sample.fib.LegalPhi (Cfg.of Sample.fib ⟨0⟩) ⟨3⟩ (.int 64)
      [(some ⟨15⟩, some ⟨2⟩), (some ⟨9⟩, some ⟨3⟩)] ∧
    (RuleContext.withFlow Sample.fib ⟨0⟩ tangledFlow).checkPhi ⟨3⟩ (.int 64)
      [(some ⟨9⟩, some ⟨3⟩), (some ⟨15⟩, some ⟨2⟩)] = .ok () := by
  have passed : (RuleContext.of Sample.fib ⟨0⟩).checkPhi ⟨3⟩ (.int 64)
      [(some ⟨15⟩, some ⟨2⟩), (some ⟨9⟩, some ⟨3⟩)] = .ok () := by
    rw [context_fib]
    decide +kernel
  obtain ⟨legal, alike⟩ := checkPhi_exact Sample.fib ⟨0⟩ ⟨3⟩ (.int 64)
    [(some ⟨15⟩, some ⟨2⟩), (some ⟨9⟩, some ⟨3⟩)]
  exact ⟨legal.mp passed, (alike tangledFlow _ sameEdges_fib (.swap _ _ [])).mpr passed⟩

end Module

end SsaAmd64
