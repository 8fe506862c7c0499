/-
**The tree of immediate dominators.**

The ancestors of a vertex in the forest of numbers are its dominators, and each of them has those
behind it as its own. So the parent of a vertex is dominated by all its other strict dominators, and
no other vertex can be in its place. Children, chains and the edges of the diagram are read off the
same parents.

* `Digraph.ImmediatelyDominates`: a strict dominator that all others dominate;
* `DominatorTree.idom?_eq_some_iff`: the tree answers with the immediate dominator;
* `DominatorTree.Lawful`: what a tree of immediate dominators is;
* `Diagram.Draws`: what a diagram of it shows;
* `Cfg.dominatorTree_lawful`: the tree of a control-flow graph is one, and its diagram shows it.
-/

import Mathlib.Data.List.Nodup
import SsaAmd64.Flow.Diagram
import SsaAmd64.Proofs.Flow.Dominators
import SsaAmd64.Proofs.Flow.Postorder

namespace SsaAmd64

/-! ### Chains of ancestors -/

namespace Forest

/-- Each ancestor of a vertex has a smaller number than those before it, and is one of theirs. -/
theorem pairwise_ancestors (forest : Forest) (vertex : Nat) :
    (forest.ancestors vertex).Pairwise fun lower upper =>
      upper < lower ∧ upper ∈ forest.ancestors lower := by
  induction vertex using Nat.strongRecOn with
  | ind vertex ih =>
    cases found : forest.parent? vertex with
    | none =>
      rw [ancestors, found]
      exact List.pairwise_singleton _ _
    | some parent =>
      by_cases lower : parent < vertex
      · rw [ancestors_of_lt found lower, List.pairwise_cons]
        refine ⟨fun upper member => ⟨?_, ?_⟩, ih parent lower⟩
        · exact Nat.lt_of_le_of_lt (le_of_mem_ancestors member) lower
        · rw [ancestors_of_lt found lower]
          exact List.mem_cons_of_mem _ member
      · rw [ancestors, found]
        simp only [if_neg lower]
        exact List.pairwise_singleton _ _

/-- The ancestors of an assigned vertex end with the entry. -/
theorem getLast?_ancestors {forest : Forest} {vertex : Nat} (ordered : Ordered forest)
    (assigned : forest.Assigned vertex) : (forest.ancestors vertex).getLast? = some 0 := by
  induction vertex using Nat.strongRecOn with
  | ind vertex ih =>
    by_cases root : vertex = 0
    · rw [root, ancestors_zero]
      rfl
    · obtain ⟨parent, found⟩ := Option.isSome_iff_exists.mp assigned
      have lower := ordered.lower root found
      have above := ih parent lower (ordered.upheld found)
      rw [ancestors_of_lt found lower, List.getLast?_cons, above]
      rfl

end Forest

/-! ### Dominance -/

namespace Digraph

variable {V : Type}

/-- The second vertex can be reached, and every path to it from the entry visits the first. -/
def Dominates (graph : Digraph V) (first second : V) : Prop :=
  graph.Reachable second ∧ ∀ visited, graph.PathTo second visited → first ∈ visited

def StrictlyDominates (graph : Digraph V) (first second : V) : Prop :=
  graph.Dominates first second ∧ first ≠ second

/-- A strict dominator that every other strict dominator dominates. -/
def ImmediatelyDominates (graph : Digraph V) (first second : V) : Prop :=
  graph.StrictlyDominates first second ∧
    ∀ other, graph.StrictlyDominates other second → graph.Dominates other first

variable {graph : Digraph V} {first second : V}

theorem Dominates.reachable (dominates : graph.Dominates first second) : graph.Reachable first := by
  obtain ⟨⟨visited, path⟩, passes⟩ := dominates
  exact path.reachable (passes visited path)

/-- Nothing but itself dominates the entry. -/
theorem Dominates.of_entry (dominates : graph.Dominates first second)
    (entry : graph.entry? = some second) : first = second :=
  List.mem_singleton.mp (dominates.2 [second] ⟨second, entry, .start⟩)

end Digraph

namespace DominatorTree

variable {V : Type} {vertices : List V} {vertex : V} {number number' : Nat}

/-! ### Numbers of vertices -/

/-- In a list without repetition a vertex has one number, -/
theorem number_unique (distinct : vertices.Nodup) (here : vertices[number]? = some vertex)
    (there : vertices[number']? = some vertex) : number = number' :=
  (List.getElem?_inj (List.getElem?_eq_some_iff.mp here).1 distinct).mp (here.trans there.symm)

variable [DecidableEq V] {graph : Digraph V} {first second parent : V} {source target : Nat}

/-- by which it is found. -/
theorem positionIn?_of_getElem? (distinct : vertices.Nodup)
    (here : vertices[number]? = some vertex) : positionIn? vertices vertex = some number := by
  obtain ⟨position, found, _⟩ := positionIn?_le here
  rw [found, number_unique distinct here (getElem?_of_positionIn? found)]

theorem positionIn?_iff (distinct : vertices.Nodup) :
    positionIn? vertices vertex = some number ↔ vertices[number]? = some vertex :=
  ⟨getElem?_of_positionIn?, positionIn?_of_getElem? distinct⟩

theorem exists_number (reachable : graph.Reachable vertex) :
    ∃ number : Nat, graph.reversePostorder[number]? = some vertex :=
  List.mem_iff_getElem?.mp ((graph.mem_reversePostorder_iff vertex).mpr reachable)

theorem reachable_of_number (here : graph.reversePostorder[number]? = some vertex) :
    graph.Reachable vertex :=
  (graph.mem_reversePostorder_iff vertex).mp (List.mem_of_getElem? here)

/-- The dominators of a vertex are the ancestors of its number. -/
theorem mem_ancestors_iff (distinct : graph.vertices.Nodup)
    (one : graph.reversePostorder[source]? = some first)
    (other : graph.reversePostorder[target]? = some second) :
    source ∈ (of graph).parents.ancestors target ↔ graph.Dominates first second := by
  have unique := Digraph.nodup_reversePostorder distinct
  rw [Digraph.Dominates, ← dominates_iff, dominates, position?, position?, of,
    positionIn?_of_getElem? unique one, positionIn?_of_getElem? unique other]
  exact List.contains_iff_mem.symm

theorem dominates_antisymm (distinct : graph.vertices.Nodup)
    (one : graph.Dominates first second) (other : graph.Dominates second first) :
    first = second := by
  obtain ⟨source, here⟩ := exists_number other.1
  obtain ⟨target, there⟩ := exists_number one.1
  have upper := Forest.le_of_mem_ancestors ((mem_ancestors_iff distinct here there).mpr one)
  have lower := Forest.le_of_mem_ancestors ((mem_ancestors_iff distinct there here).mpr other)
  rw [Nat.le_antisymm upper lower, there] at here
  exact (Option.some.inj here).symm

/-! ### Parents -/

/-- Every number but that of the entry has a parent. -/
theorem exists_parent (positive : number ≠ 0)
    (bound : number < graph.reversePostorder.length) :
    ∃ parent, (of graph).parents.parent? number = some parent := by
  have nonempty : graph.reversePostorder ≠ [] := List.ne_nil_of_length_pos (by omega)
  have assigned := (settled nonempty).assigned (lt_of_lt_of_eq bound length_numbering.symm)
  obtain ⟨parent, known⟩ := Option.isSome_iff_exists.mp assigned
  exact ⟨parent, by rw [of, Forest.parent?_set_of_ne positive]; exact known⟩

theorem ancestors_of_parent (known : (of graph).parents.parent? number = some source) :
    (of graph).parents.ancestors number = number :: (of graph).parents.ancestors source :=
  Forest.ancestors_of_lt known (parent_lt graph known)

theorem idom?_eq_some_iff_exists : (of graph).idom? vertex = some parent ↔
    ∃ number source, (of graph).position? vertex = some number ∧
      (of graph).parents.parent? number = some source ∧
      graph.reversePostorder[source]? = some parent := by
  simp only [idom?, Option.bind_eq_bind, Option.bind_eq_some_iff, exists_and_left]
  rfl

/-! ### Immediate dominators -/

/-- The parent is dominated by all other strict dominators: they are its ancestors. -/
theorem immediatelyDominates_of_parent (distinct : graph.vertices.Nodup)
    (here : graph.reversePostorder[number]? = some vertex)
    (known : (of graph).parents.parent? number = some source)
    (there : graph.reversePostorder[source]? = some parent) :
    graph.ImmediatelyDominates parent vertex := by
  have chain := ancestors_of_parent known
  have lower := parent_lt graph known
  refine ⟨⟨?_, ?_⟩, fun other strictly => ?_⟩
  · rw [← mem_ancestors_iff distinct there here, chain]
    exact List.mem_cons_of_mem _ (Forest.self_mem_ancestors _ source)
  · rintro rfl
    have unique := Digraph.nodup_reversePostorder distinct
    exact Nat.ne_of_lt lower (number_unique unique there here)
  · obtain ⟨index, place⟩ := exists_number strictly.1.reachable
    have among := (mem_ancestors_iff distinct place here).mpr strictly.1
    rw [chain] at among
    refine (mem_ancestors_iff distinct place there).mp ((List.mem_cons.mp among).resolve_left ?_)
    rintro rfl
    exact strictly.2 (Option.some.inj (place.symm.trans here))

theorem exists_idom? (reachable : graph.Reachable vertex) (other : graph.entry? ≠ some vertex) :
    ∃ parent, (of graph).idom? vertex = some parent := by
  obtain ⟨number, found⟩ :=
    exists_positionIn? ((graph.mem_reversePostorder_iff vertex).mpr reachable)
  have here := getElem?_of_positionIn? found
  have bound := (List.getElem?_eq_some_iff.mp here).1
  have positive : number ≠ 0 := by
    rintro rfl
    rw [← List.head?_eq_getElem?, graph.head?_reversePostorder] at here
    exact other here
  obtain ⟨source, known⟩ := exists_parent positive bound
  have inside := Nat.lt_trans (parent_lt graph known) bound
  exact ⟨_, idom?_eq_some_iff_exists.mpr
    ⟨number, source, found, known, List.getElem?_eq_getElem inside⟩⟩

/-- **The tree answers with the immediate dominator**: two of them would dominate each other. -/
theorem idom?_eq_some_iff (distinct : graph.vertices.Nodup) :
    (of graph).idom? vertex = some parent ↔ graph.ImmediatelyDominates parent vertex := by
  have sound : ∀ {parent}, (of graph).idom? vertex = some parent →
      graph.ImmediatelyDominates parent vertex := by
    intro parent answer
    obtain ⟨number, source, found, known, there⟩ := idom?_eq_some_iff_exists.mp answer
    exact immediatelyDominates_of_parent distinct (getElem?_of_positionIn? found) known there
  refine ⟨sound, fun immediate => ?_⟩
  have other : graph.entry? ≠ some vertex := fun entry =>
    immediate.1.2 (immediate.1.1.of_entry entry)
  obtain ⟨answer, known⟩ := exists_idom? immediate.1.1.1 other
  have immediate' := sound known
  rw [known, dominates_antisymm distinct (immediate.2 answer immediate'.1)
    (immediate'.2 parent immediate.1)]

/-- The entry and what cannot be reached have no immediate dominator. -/
theorem idom?_eq_none (distinct : graph.vertices.Nodup)
    (alone : graph.entry? = some vertex ∨ ¬ graph.Reachable vertex) :
    (of graph).idom? vertex = none := by
  rw [Option.eq_none_iff_forall_ne_some]
  intro parent known
  have immediate := (idom?_eq_some_iff distinct).mp known
  rcases alone with entry | unreachable
  · exact immediate.1.2 (immediate.1.1.of_entry entry)
  · exact unreachable immediate.1.1.1

/-! ### Children -/

theorem mem_children_iff (distinct : graph.vertices.Nodup) :
    first ∈ (of graph).children second ↔ (of graph).idom? first = some second := by
  have unique := Digraph.nodup_reversePostorder distinct
  have place : ∀ vertex number, (of graph).position? vertex = some number ↔
      graph.reversePostorder[number]? = some vertex := fun _ _ => positionIn?_iff unique
  rw [idom?_eq_some_iff_exists, children]
  constructor
  · intro member
    split at member
    case h_1 position found =>
      obtain ⟨child, listed, here⟩ := List.mem_filterMap.mp member
      have known := of_decide_eq_true (List.mem_filter.mp listed).2
      exact ⟨child, position, (place _ _).mpr here, known, (place _ _).mp found⟩
    case h_2 => cases member
  · rintro ⟨number, source, found, known, there⟩
    have here := (place _ _).mp found
    rw [(place _ _).mpr there]
    refine List.mem_filterMap.mpr ⟨number, List.mem_filter.mpr ⟨?_, decide_eq_true known⟩, here⟩
    exact List.mem_range.mpr (List.getElem?_eq_some_iff.mp here).1

theorem nodup_children (distinct : graph.vertices.Nodup) (vertex : V) :
    ((of graph).children vertex).Nodup := by
  have unique := Digraph.nodup_reversePostorder distinct
  rw [children]
  split
  case h_1 position found =>
    refine (List.nodup_range.filter _).filterMap fun child child' vertex here there => ?_
    exact number_unique unique here there
  case h_2 => exact List.nodup_nil

/-! ### Chains of dominators -/

theorem dominators_of_number (distinct : graph.vertices.Nodup) (strict : Bool)
    (here : graph.reversePostorder[number]? = some vertex) :
    (of graph).dominators vertex strict =
      (if strict then ((of graph).parents.ancestors number).tail
        else (of graph).parents.ancestors number).filterMap (graph.reversePostorder[·]?) := by
  have unique := Digraph.nodup_reversePostorder distinct
  have found : (of graph).position? vertex = some number := positionIn?_of_getElem? unique here
  rw [dominators, found]
  rfl

theorem dominators_of_unreachable (unreachable : ¬ graph.Reachable vertex) (strict : Bool) :
    (of graph).dominators vertex strict = [] := by
  have absent : (of graph).position? vertex = none := by
    rw [← Option.not_isSome_iff_eq_none, position?_isSome_iff]
    exact unreachable
  rw [dominators, absent]

theorem dominators_eq_cons (distinct : graph.vertices.Nodup) (reachable : graph.Reachable vertex) :
    (of graph).dominators vertex false = vertex :: (of graph).dominators vertex true := by
  obtain ⟨number, here⟩ := exists_number reachable
  rw [dominators_of_number distinct false here, dominators_of_number distinct true here]
  rw [if_neg Bool.false_ne_true, if_pos rfl, Forest.ancestors, List.tail_cons,
    List.filterMap_cons_some here]

/-- **The chain of a vertex holds its dominators.** -/
theorem mem_dominators_iff (distinct : graph.vertices.Nodup) :
    first ∈ (of graph).dominators second false ↔ graph.Dominates first second := by
  by_cases reachable : graph.Reachable second
  · obtain ⟨target, here⟩ := exists_number reachable
    rw [dominators_of_number distinct false here, if_neg Bool.false_ne_true, List.mem_filterMap]
    constructor
    · rintro ⟨source, member, there⟩
      exact (mem_ancestors_iff distinct there here).mp member
    · intro dominates
      obtain ⟨source, there⟩ := exists_number dominates.reachable
      exact ⟨source, (mem_ancestors_iff distinct there here).mpr dominates, there⟩
  · rw [dominators_of_unreachable reachable]
    exact ⟨nofun, fun dominates => absurd dominates.1 reachable⟩

/-- **Each vertex of a chain is dominated by all behind it**, and none is there twice. -/
theorem pairwise_dominators (distinct : graph.vertices.Nodup) (vertex : V) :
    ((of graph).dominators vertex false).Pairwise fun lower upper =>
      graph.StrictlyDominates upper lower := by
  by_cases reachable : graph.Reachable vertex
  · obtain ⟨number, here⟩ := exists_number reachable
    rw [dominators_of_number distinct false here, if_neg Bool.false_ne_true]
    refine (Forest.pairwise_ancestors _ number).filterMap _ ?_
    intro source target ⟨less, among⟩ lower place upper place'
    refine ⟨(mem_ancestors_iff distinct place' place).mp among, ?_⟩
    rintro rfl
    have unique := Digraph.nodup_reversePostorder distinct
    exact Nat.ne_of_gt less (number_unique unique place place')
  · rw [dominators_of_unreachable reachable]
    exact .nil

theorem getLast?_dominators (distinct : graph.vertices.Nodup)
    (reachable : graph.Reachable vertex) :
    ((of graph).dominators vertex false).getLast? = graph.entry? := by
  obtain ⟨number, here⟩ := exists_number reachable
  have bound := (List.getElem?_eq_some_iff.mp here).1
  have nonempty := List.ne_nil_of_length_pos (Nat.lt_of_le_of_lt (Nat.zero_le number) bound)
  have settled := settled nonempty
  have last := Forest.getLast?_ancestors settled.refining.ordered
    (settled.assigned (lt_of_lt_of_eq bound length_numbering.symm))
  rw [← ancestors_of] at last
  obtain ⟨lower, chain⟩ := List.getLast?_eq_some_iff.mp last
  obtain ⟨_, entry, start, _⟩ := reachable
  have first : graph.reversePostorder[0]? = some entry := by
    rw [← List.head?_eq_getElem?, graph.head?_reversePostorder, start]
  rw [dominators_of_number distinct false here, if_neg Bool.false_ne_true, chain,
    List.filterMap_append, List.filterMap_cons_some first, start]
  exact List.getLast?_concat

/-- The chain goes on with that of the immediate dominator. -/
theorem dominators_strict (distinct : graph.vertices.Nodup) (reachable : graph.Reachable vertex) :
    (of graph).dominators vertex true =
      match (of graph).idom? vertex with
      | some parent => (of graph).dominators parent false
      | none => [] := by
  obtain ⟨number, here⟩ := exists_number reachable
  have unique := Digraph.nodup_reversePostorder distinct
  have found : (of graph).position? vertex = some number := positionIn?_of_getElem? unique here
  rw [dominators_of_number distinct true here, if_pos rfl]
  cases known : (of graph).parents.parent? number with
  | none =>
    have nothing : (of graph).idom? vertex = none := by
      rw [idom?, found, Option.bind_eq_bind, Option.bind_some, known]
      rfl
    rw [nothing, Forest.ancestors, known]
    rfl
  | some source =>
    have bound := (List.getElem?_eq_some_iff.mp here).1
    have there := List.getElem?_eq_getElem (Nat.lt_trans (parent_lt graph known) bound)
    rw [idom?_eq_some_iff_exists.mpr ⟨number, source, found, known, there⟩,
      ancestors_of_parent known, List.tail_cons]
    exact (dominators_of_number distinct false there).symm

/-! ### The tree -/

/-- **What a tree of immediate dominators is.** -/
structure Lawful (graph : Digraph V) (tree : DominatorTree V) : Prop where
  /-- It holds each vertex that can be reached once, the entry first. -/
  mem_vertices_iff : ∀ vertex, vertex ∈ tree.vertices ↔ graph.Reachable vertex
  distinct : tree.vertices.Nodup
  head? : tree.vertices.head? = graph.entry?
  /-- Every vertex that can be reached, other than the entry, has an immediate dominator, and that
  is the only one; -/
  idom : ∀ vertex, graph.Reachable vertex → graph.entry? ≠ some vertex →
    ∃ parent, tree.idom? vertex = some parent ∧
      ∀ other, graph.ImmediatelyDominates other vertex ↔ other = parent
  /-- the entry and what cannot be reached have none. -/
  idom_none : ∀ vertex, graph.entry? = some vertex ∨ ¬ graph.Reachable vertex →
    tree.idom? vertex = none
  mem_children_iff : ∀ child vertex,
    child ∈ tree.children vertex ↔ tree.idom? child = some vertex
  /-- The chain of a vertex holds its dominators, from the vertex to the entry; each is dominated by
  those behind it and differs from them. -/
  mem_dominators_iff : ∀ first second,
    first ∈ tree.dominators second false ↔ graph.Dominates first second
  ordered : ∀ vertex, (tree.dominators vertex false).Pairwise fun lower upper =>
    graph.StrictlyDominates upper lower
  ends : ∀ vertex, graph.Reachable vertex →
    (tree.dominators vertex false).head? = some vertex ∧
      (tree.dominators vertex false).getLast? = graph.entry?
  /-- The strict chain is the chain without the vertex, and that of its immediate dominator. -/
  strict : ∀ vertex, tree.dominators vertex true = (tree.dominators vertex false).erase vertex
  follows : ∀ vertex, tree.dominators vertex true =
    match tree.idom? vertex with
    | some parent => tree.dominators parent false
    | none => []

theorem lawful (distinct : graph.vertices.Nodup) : Lawful graph (of graph) := by
  constructor
  case mem_vertices_iff => exact graph.mem_reversePostorder_iff
  case distinct => exact Digraph.nodup_reversePostorder distinct
  case head? => exact graph.head?_reversePostorder
  case idom =>
    intro vertex reachable other
    obtain ⟨parent, known⟩ := exists_idom? reachable other
    refine ⟨parent, known, fun other => ?_⟩
    rw [← idom?_eq_some_iff distinct, known]
    exact ⟨fun same => (Option.some.inj same).symm, fun same => congrArg some same.symm⟩
  case idom_none => exact fun vertex => idom?_eq_none distinct
  case mem_children_iff => exact fun _ _ => DominatorTree.mem_children_iff distinct
  case mem_dominators_iff => exact fun _ _ => DominatorTree.mem_dominators_iff distinct
  case ordered => exact pairwise_dominators distinct
  case ends =>
    intro vertex reachable
    refine ⟨?_, getLast?_dominators distinct reachable⟩
    rw [dominators_eq_cons distinct reachable]
    rfl
  case strict =>
    intro vertex
    by_cases reachable : graph.Reachable vertex
    · rw [dominators_eq_cons distinct reachable, List.erase_cons_head]
    · rw [dominators_of_unreachable reachable, dominators_of_unreachable reachable]
      rfl
  case follows =>
    intro vertex
    by_cases reachable : graph.Reachable vertex
    · exact dominators_strict distinct reachable
    · rw [dominators_of_unreachable reachable, idom?_eq_none distinct (.inr reachable)]

end DominatorTree

/-! ### The diagram -/

namespace Diagram

variable {graph : Digraph ValueId} {source target : Nat}

theorem mem_edgesBetween_iff {vertices : List ValueId} {targets : ValueId → List ValueId}
    (distinct : vertices.Nodup) : (source, target) ∈ edgesBetween vertices targets ↔
      ∃ first second, vertices[source]? = some first ∧ vertices[target]? = some second ∧
        second ∈ targets first := by
  simp only [edgesBetween, List.mem_flatMap, List.mem_map, List.mem_filterMap, Prod.exists,
    List.mem_zipIdx_iff_getElem?, DominatorTree.positionIn?_iff distinct, Prod.mk.injEq]
  constructor
  · rintro ⟨first, _, here, _, ⟨second, member, there⟩, rfl, rfl⟩
    exact ⟨first, second, here, there, member⟩
  · rintro ⟨first, second, here, there, member⟩
    exact ⟨first, source, here, target, ⟨second, member, there⟩, rfl, rfl⟩

theorem nodup_edgesBetween (vertices : List ValueId) {targets : ValueId → List ValueId}
    (once : ∀ vertex, (targets vertex).Nodup) : (edgesBetween vertices targets).Nodup := by
  rw [edgesBetween, List.nodup_flatMap]
  constructor
  · rintro ⟨vertex, source⟩ _
    refine List.Nodup.map (fun _ _ same => (Prod.mk.inj same).2) ((once vertex).filterMap ?_)
    intro first second number here there
    exact DominatorTree.positionIn?_inj here there
  · have sources : (vertices.zipIdx.map Prod.snd).Nodup := by
      rw [List.zipIdx_map_snd]
      exact List.nodup_range'
    refine (List.pairwise_map.mp sources).imp fun {first second} different => ?_
    refine List.disjoint_left.mpr fun edge one other => ?_
    obtain ⟨_, _, rfl⟩ := List.mem_map.mp one
    obtain ⟨_, _, same⟩ := List.mem_map.mp other
    exact different (Prod.mk.inj same).1.symm

/-- The edges lead from each vertex to those that it dominates immediately. -/
theorem mem_edges_iff (distinct : graph.vertices.Nodup) :
    (source, target) ∈ edgesBetween (DominatorTree.of graph).vertices
        (DominatorTree.of graph).children ↔
      ∃ parent vertex, (DominatorTree.of graph).vertices[source]? = some parent ∧
        (DominatorTree.of graph).vertices[target]? = some vertex ∧
        (DominatorTree.of graph).idom? vertex = some parent := by
  have unique : (DominatorTree.of graph).vertices.Nodup := Digraph.nodup_reversePostorder distinct
  rw [mem_edgesBetween_iff unique]
  simp only [DominatorTree.mem_children_iff distinct]

/-- **What a diagram of a dominator tree shows.** -/
structure Draws (printer : Printer) (tree : DominatorTree ValueId) (diagram : Diagram) : Prop where
  nodes : diagram.nodes = tree.vertices.map printer.name
  inside : ∀ edge ∈ diagram.edges,
    edge.1 < tree.vertices.length ∧ edge.2 < tree.vertices.length
  root : ∀ edge ∈ diagram.edges, edge.2 ≠ 0
  /-- One edge leads into each node but the root, from the node of its immediate dominator. -/
  into : ∀ target vertex, target ≠ 0 → tree.vertices[target]? = some vertex →
    ∃ source parent, tree.vertices[source]? = some parent ∧ tree.idom? vertex = some parent ∧
      (diagram.edges.filter fun edge => edge.2 = target) = [(source, target)]

theorem draws (distinct : graph.vertices.Nodup) (printer : Printer) (function : ValueId) :
    Draws printer (DominatorTree.of graph)
      (ofDominatorTree printer function (DominatorTree.of graph)) := by
  have unique : (DominatorTree.of graph).vertices.Nodup := Digraph.nodup_reversePostorder distinct
  constructor
  case nodes => rfl
  case inside =>
    rintro ⟨source, target⟩ member
    obtain ⟨_, _, here, there, _⟩ := (mem_edges_iff distinct).mp member
    exact ⟨(List.getElem?_eq_some_iff.mp here).1, (List.getElem?_eq_some_iff.mp there).1⟩
  case root =>
    rintro ⟨source, target⟩ member rfl
    obtain ⟨_, vertex, _, there, known⟩ := (mem_edges_iff distinct).mp member
    have entry : graph.entry? = some vertex := by
      rw [← graph.head?_reversePostorder, List.head?_eq_getElem?]
      exact there
    rw [DominatorTree.idom?_eq_none distinct (.inl entry)] at known
    cases known
  case into =>
    intro target vertex positive here
    have other : graph.entry? ≠ some vertex := by
      rw [← graph.head?_reversePostorder, List.head?_eq_getElem?]
      intro first
      exact positive (DominatorTree.number_unique unique here first)
    obtain ⟨parent, known⟩ :=
      DominatorTree.exists_idom? (DominatorTree.reachable_of_number here) other
    have reachable := ((DominatorTree.idom?_eq_some_iff distinct).mp known).1.1.reachable
    obtain ⟨source, there⟩ := DominatorTree.exists_number reachable
    refine ⟨source, parent, there, known, ?_⟩
    have once := nodup_edgesBetween (DominatorTree.of graph).vertices
      (DominatorTree.nodup_children distinct)
    refine List.perm_singleton.mp
      ((List.perm_ext_iff_of_nodup (once.filter _) (List.nodup_singleton _)).mpr ?_)
    rintro ⟨source', target'⟩
    rw [List.mem_filter, List.mem_singleton, decide_eq_true_eq, Prod.mk.injEq]
    constructor
    · rintro ⟨member, rfl⟩
      obtain ⟨parent', vertex', place, place', known'⟩ := (mem_edges_iff distinct).mp member
      obtain rfl := Option.some.inj (Eq.trans (Eq.symm place') here)
      obtain rfl := Option.some.inj (Eq.trans (Eq.symm known') known)
      exact ⟨DominatorTree.number_unique unique place there, rfl⟩
    · rintro ⟨rfl, rfl⟩
      exact ⟨(mem_edges_iff distinct).mpr ⟨parent, vertex, there, here, known⟩, rfl⟩

end Diagram

/-- **The dominator tree of a control-flow graph is a tree of immediate dominators, and its diagram
shows it.** The graphs of a module hold each block once (`Module.Built.nodup_vertices`). -/
theorem Cfg.dominatorTree_lawful (cfg : Cfg) (distinct : cfg.blocks.Nodup) (printer : Printer) :
    DominatorTree.Lawful cfg.graph cfg.dominatorTree ∧
      Diagram.Draws printer cfg.dominatorTree
        (Diagram.ofDominatorTree printer cfg.function cfg.dominatorTree) :=
  ⟨DominatorTree.lawful distinct, Diagram.draws distinct printer cfg.function⟩

/-- The loop is entered at 3 and at 4: of its blocks only 5, which nothing but 3 leads to, has
another strict dominator than the entry. -/
theorem Cfg.dominatorTree_lawful_braid : braid.blocks.Nodup ∧
    DominatorTree.Lawful braid.graph braid.dominatorTree ∧
    Diagram.Draws (.of (Module.empty "m")) braid.dominatorTree
      (Diagram.ofDominatorTree (.of (Module.empty "m")) braid.function braid.dominatorTree) ∧
    braid.dominatorTree.dominators ⟨5⟩ false = [⟨5⟩, ⟨3⟩, ⟨1⟩] ∧
    braid.dominatorTree.children ⟨1⟩ = [⟨2⟩, ⟨4⟩, ⟨6⟩, ⟨3⟩] := by
  have lawful := dominatorTree_lawful braid nodup_braid (.of (Module.empty "m"))
  have tree : braid.dominatorTree = ⟨[⟨1⟩, ⟨2⟩, ⟨4⟩, ⟨6⟩, ⟨3⟩, ⟨5⟩],
      [none, some 0, some 0, some 0, some 0, some 4]⟩ :=
    DominatorTree.of_eq nodup_braid (by decide +kernel) (by decide +kernel)
  refine ⟨nodup_braid, lawful.1, lawful.2, ?_, ?_⟩
  · rw [tree]
    decide +kernel
  · rw [tree]
    decide +kernel

end SsaAmd64
