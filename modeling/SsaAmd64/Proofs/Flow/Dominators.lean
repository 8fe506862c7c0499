/-
**Dominator trees are exact.**

A reverse postorder numbers the vertices that can be reached, and the paths of the graph are the
paths between their numbers. What the iteration finds for the numbers therefore holds of the
vertices themselves.

* `DominatorTree.numbered`: the numbers fit the iteration;
* `DominatorTree.dominates_iff`: the tree answers which vertices lie on all paths to another;
* `DominatorTree.computation_exact`: its computation ends, with that tree.
-/

import SsaAmd64.Flow.DominatorTree
import SsaAmd64.Proofs.Flow.Search
import SsaAmd64.Proofs.Flow.Termination

namespace SsaAmd64

namespace DominatorTree

variable {V : Type} [DecidableEq V]

/-! ### Positions -/

section

variable {vertices : List V} {vertex other : V} {position : Nat}

theorem getElem?_of_positionIn? (found : positionIn? vertices vertex = some position) :
    vertices[position]? = some vertex := by
  obtain ⟨inside, same, _⟩ := List.findIdx?_eq_some_iff_getElem.mp found
  rw [List.getElem?_eq_getElem inside]
  exact congrArg some (of_decide_eq_true same)

theorem positionIn?_inj (found : positionIn? vertices vertex = some position)
    (found' : positionIn? vertices other = some position) : vertex = other :=
  Option.some.inj ((getElem?_of_positionIn? found).symm.trans (getElem?_of_positionIn? found'))

theorem positionIn?_isSome_iff : (positionIn? vertices vertex).isSome ↔ vertex ∈ vertices := by
  rw [positionIn?, List.findIdx?_isSome, List.any_eq_true]
  constructor
  · rintro ⟨other, member, same⟩
    rw [← of_decide_eq_true same]
    exact member
  · exact fun member => ⟨vertex, member, decide_eq_true rfl⟩

theorem exists_positionIn? (member : vertex ∈ vertices) :
    ∃ position, positionIn? vertices vertex = some position :=
  Option.isSome_iff_exists.mp (positionIn?_isSome_iff.mpr member)

/-- A vertex is found at the first place that holds it. -/
theorem positionIn?_le (here : vertices[position]? = some vertex) :
    ∃ first, positionIn? vertices vertex = some first ∧ first ≤ position := by
  obtain ⟨inside, same⟩ := List.getElem?_eq_some_iff.mp here
  obtain ⟨first, found⟩ := exists_positionIn? (List.mem_of_getElem? here)
  refine ⟨first, found, Nat.le_of_not_lt fun less => ?_⟩
  obtain ⟨_, _, before⟩ := List.findIdx?_eq_some_iff_getElem.mp found
  exact before position less (decide_eq_true same)

end

/-! ### Paths between numbers -/

variable (graph : Digraph V)

/-- The predecessors of the numbers of a graph. -/
abbrev numbering : List (List Nat) :=
  numberedPredecessors graph graph.reversePostorder

variable {graph} {first second vertex : V} {source target : Nat} {visited : List Nat}

theorem length_numbering : (numbering graph).length = graph.reversePostorder.length :=
  List.length_map _

/-- Edges between numbers are the edges between the vertices, each source at its first place. -/
theorem numberedEdge_iff : NumberedEdge (numbering graph) source target ↔
    ∃ from_ to_, positionIn? graph.reversePostorder from_ = some source ∧
      graph.reversePostorder[target]? = some to_ ∧ graph.Edge from_ to_ := by
  rw [NumberedEdge, numbering, numberedPredecessors]
  constructor
  · rintro ⟨sources, here, member⟩
    rw [List.getElem?_map] at here
    obtain ⟨to_, place, rfl⟩ := Option.map_eq_some_iff.mp here
    obtain ⟨from_, joined, found⟩ := List.mem_filterMap.mp member
    obtain ⟨inside, leads⟩ := (graph.mem_predecessors_iff to_ from_).mp joined
    have reached := (graph.mem_reversePostorder_iff to_).mp (List.mem_of_getElem? place)
    exact ⟨from_, to_, found, place, inside, reached.mem_vertices, leads⟩
  · rintro ⟨from_, to_, found, place, inside, _, leads⟩
    refine ⟨_, by rw [List.getElem?_map, place]; rfl, List.mem_filterMap.mpr ⟨from_, ?_, found⟩⟩
    exact (graph.mem_predecessors_iff to_ from_).mpr ⟨inside, leads⟩

/-- **The numbers fit the iteration.** -/
theorem numbered (graph : Digraph V) : Numbered (numbering graph) := by
  intro index sources positive here
  obtain ⟨index, rfl⟩ := Nat.exists_eq_succ_of_ne_zero positive
  rw [numbering, numberedPredecessors, List.getElem?_map] at here
  obtain ⟨to_, place, rfl⟩ := Option.map_eq_some_iff.mp here
  obtain ⟨earlier, from_, less, place', joined⟩ := graph.exists_earlier_source place
  obtain ⟨number, found, le⟩ := positionIn?_le place'
  refine ⟨number, List.mem_filterMap.mpr ⟨from_, ?_, found⟩, Nat.lt_of_le_of_lt le less⟩
  exact (graph.mem_predecessors_iff to_ from_).mpr ⟨joined.1, joined.2.2⟩

/-- A path of the graph, number by number. -/
theorem path_numbers {walk : List V} (path : graph.PathTo vertex walk)
    (found : positionIn? graph.reversePostorder vertex = some target) :
    Path (NumberedEdge (numbering graph)) 0 target
      (walk.map fun vertex => (positionIn? graph.reversePostorder vertex).getD 0) := by
  obtain ⟨entry, start, path⟩ := path
  have root : positionIn? graph.reversePostorder entry = some 0 := by
    rw [← graph.head?_reversePostorder, List.head?_eq_getElem?] at start
    obtain ⟨first, found, le⟩ := positionIn?_le start
    rw [found, Nat.le_zero.mp le]
  have along : ∀ {last next : V}, graph.Reachable last → graph.Edge last next →
      graph.Reachable next ∧ NumberedEdge (numbering graph)
        ((positionIn? graph.reversePostorder last).getD 0)
        ((positionIn? graph.reversePostorder next).getD 0) := by
    intro last next reached joined
    obtain ⟨from_, found⟩ := exists_positionIn? ((graph.mem_reversePostorder_iff last).mpr reached)
    have reached' := reached.of_edge joined
    obtain ⟨to_, found'⟩ := exists_positionIn? ((graph.mem_reversePostorder_iff next).mpr reached')
    rw [found, found']
    exact ⟨reached', numberedEdge_iff.mpr ⟨last, next, found, getElem?_of_positionIn? found',
      joined⟩⟩
  have walked := path.map (fun vertex => (positionIn? graph.reversePostorder vertex).getD 0)
    graph.Reachable ⟨[entry], entry, start, .start⟩ along
  rwa [root, found] at walked

/-- A path between numbers, vertex by vertex. -/
theorem path_vertices {entry : V} (start : graph.entry? = some entry)
    (path : Path (NumberedEdge (numbering graph)) 0 target visited)
    (found : graph.reversePostorder[target]? = some vertex) :
    graph.PathTo vertex (visited.map fun number => (graph.reversePostorder[number]?).getD entry) := by
  have root : graph.reversePostorder[0]? = some entry := by
    rw [← start, ← graph.head?_reversePostorder, List.head?_eq_getElem?]
  have along : ∀ {last next : Nat}, True → NumberedEdge (numbering graph) last next →
      True ∧ graph.Edge ((graph.reversePostorder[last]?).getD entry)
        ((graph.reversePostorder[next]?).getD entry) := by
    intro last next _ joined
    obtain ⟨from_, to_, found, place, connected⟩ := numberedEdge_iff.mp joined
    rw [getElem?_of_positionIn? found, place]
    exact ⟨trivial, connected⟩
  have walked := path.map (fun number => (graph.reversePostorder[number]?).getD entry)
    (fun _ => True) trivial along
  rw [root, found] at walked
  exact ⟨entry, start, walked⟩

/-- A path to the first place of a vertex passes through first places only. -/
theorem first_of_mem_path (path : Path (NumberedEdge (numbering graph)) 0 target visited)
    (found : positionIn? graph.reversePostorder vertex = some target) :
    ∀ number ∈ visited, ∃ other, positionIn? graph.reversePostorder other = some number := by
  induction path generalizing vertex with
  | start =>
    intro number member
    rw [List.mem_singleton.mp member]
    exact ⟨vertex, found⟩
  | step path joined ih =>
    intro number member
    rcases List.mem_append.mp member with earlier | final
    · obtain ⟨from_, _, place, _⟩ := numberedEdge_iff.mp joined
      exact ih place number earlier
    · rw [List.mem_singleton.mp final]
      exact ⟨vertex, found⟩

/-- One vertex lies on all paths to another when its number does. -/
theorem dominates_numbers_iff
    (one : positionIn? graph.reversePostorder first = some source)
    (other : positionIn? graph.reversePostorder second = some target) :
    Dominates (NumberedEdge (numbering graph)) 0 source target ↔
      ∀ walk, graph.PathTo second walk → first ∈ walk := by
  constructor
  · intro dominates walk path
    obtain ⟨between, member, same⟩ := List.mem_map.mp (dominates _ (path_numbers path other))
    obtain ⟨number, found⟩ :=
      exists_positionIn? ((graph.mem_reversePostorder_iff between).mpr (path.reachable member))
    rw [found, Option.getD_some] at same
    rw [positionIn?_inj one (same ▸ found)]
    exact member
  · intro passes visited path
    obtain ⟨_, entry, start, _⟩ := (graph.mem_reversePostorder_iff second).mp
      (List.mem_of_getElem? (getElem?_of_positionIn? other))
    obtain ⟨number, member, same⟩ := List.mem_map.mp
      (passes _ (path_vertices start path (getElem?_of_positionIn? other)))
    obtain ⟨between, found⟩ := first_of_mem_path path other number member
    rw [getElem?_of_positionIn? found, Option.getD_some] at same
    rw [same, one] at found
    rw [Option.some.inj found]
    exact member

/-! ### The tree -/

theorem settled (nonempty : graph.reversePostorder ≠ []) :
    Forest.Settled (numbering graph) (Forest.solve (numbering graph)) :=
  Forest.settled_solve (numbered graph) fun empty => nonempty (List.map_eq_nil_iff.mp empty)

/-- The entry is not its own parent in the tree, which none of the ancestors feel. -/
theorem ancestors_of (graph : Digraph V) (number : Nat) :
    (DominatorTree.of graph).parents.ancestors number =
      (Forest.solve (numbering graph)).ancestors number :=
  Forest.ancestors_set_zero none

/-- What has no number dominates nothing and is dominated by nothing. -/
theorem not_dominates_of_absent {tree : DominatorTree V}
    (absent : tree.position? first = none ∨ tree.position? second = none) :
    tree.dominates first second = false := by
  unfold dominates
  rcases absent with none | none
  · rw [none]
  · rw [none]
    cases tree.position? first <;> rfl

theorem dominates_of_numbers (one : positionIn? graph.reversePostorder first = some source)
    (other : positionIn? graph.reversePostorder second = some target) :
    (DominatorTree.of graph).dominates first second = true ↔
      ∀ walk, graph.PathTo second walk → first ∈ walk := by
  have place := getElem?_of_positionIn? other
  have bound := (List.getElem?_eq_some_iff.mp place).1
  have found : (DominatorTree.of graph).dominates first second =
      ((DominatorTree.of graph).parents.ancestors target).contains source := by
    simp only [dominates, position?, DominatorTree.of, one, other]
  rw [found, List.contains_iff_mem, ancestors_of, ← dominates_numbers_iff one other]
  refine (settled (List.ne_nil_of_mem (List.mem_of_getElem? place))).mem_ancestors_iff
    (numbered graph) ?_
  rw [length_numbering]
  exact bound

theorem position?_isSome_iff (graph : Digraph V) (vertex : V) :
    ((DominatorTree.of graph).position? vertex).isSome ↔ graph.Reachable vertex :=
  positionIn?_isSome_iff.trans (graph.mem_reversePostorder_iff vertex)

/-- **The tree answers exactly which vertices lie on all paths from the entry to another.** -/
theorem dominates_iff (graph : Digraph V) (first second : V) :
    (DominatorTree.of graph).dominates first second = true ↔
      graph.Reachable second ∧ ∀ walk, graph.PathTo second walk → first ∈ walk := by
  have reached := position?_isSome_iff graph second
  cases other : (DominatorTree.of graph).position? second with
  | none =>
    rw [other] at reached
    rw [not_dominates_of_absent (Or.inr other)]
    exact ⟨fun impossible => (nomatch impossible), fun ⟨reachable, _⟩ => (nomatch reached.mpr reachable)⟩
  | some target =>
    rw [other] at reached
    have reachable := reached.mp rfl
    cases one : (DominatorTree.of graph).position? first with
    | none =>
      rw [not_dominates_of_absent (Or.inl one)]
      refine ⟨fun impossible => (nomatch impossible), fun ⟨_, passes⟩ => ?_⟩
      obtain ⟨walk, path⟩ := reachable
      have reached := (position?_isSome_iff graph first).mpr (path.reachable (passes walk path))
      rw [one] at reached
      cases reached
    | some source =>
      rw [dominates_of_numbers one other]
      exact ⟨fun passes => ⟨reachable, passes⟩, And.right⟩

/-! ### The computation -/

/-- The tree of a graph, computed by loops that may take at most the given number of turns. -/
def ofWithin (turns : Nat) (graph : Digraph V) : Option (DominatorTree V) := do
  let order := graph.reversePostorder
  let predecessors := numberedPredecessors graph order
  let forest ← Forest.settleWithin turns predecessors (Forest.initial predecessors.length) turns
  some ⟨order, forest.set 0 none⟩

/-- The answer of a tree, found by a walk of at most the given number of turns. -/
def dominatesWithin (tree : DominatorTree V) (turns : Nat) (first second : V) : Option Bool :=
  match tree.position? first, tree.position? second with
  | some ancestor, some start => tree.parents.climbWithin ancestor turns (some start)
  | _, _ => some false

theorem ofWithin_eq (graph : Digraph V) :
    ∃ enough, ∀ turns ≥ enough, ofWithin turns graph = some (DominatorTree.of graph) := by
  by_cases empty : numbering graph = []
  · refine ⟨1, fun turns le => ?_⟩
    obtain ⟨turns, rfl⟩ := Nat.exists_eq_succ_of_ne_zero (Nat.ne_of_gt le)
    simp only [ofWithin, DominatorTree.of, empty, Forest.solve_nil]
    rfl
  · refine ⟨2 * (numbering graph).length + (Forest.initial (numbering graph).length).potential + 1,
      fun turns le => ?_⟩
    have ended : Forest.settleWithin turns (numbering graph)
        (Forest.initial (numbering graph).length) turns = some (Forest.solve (numbering graph)) :=
      Forest.settleWithin_eq (Forest.refining_initial empty) (numbered graph) empty (by omega)
        (by omega)
    simp only [ofWithin, ended]
    rfl

/-- In the tree every parent has a smaller number, the entry having none. -/
theorem parent_lt (graph : Digraph V) {number parent : Nat}
    (known : (DominatorTree.of graph).parents.parent? number = some parent) : parent < number := by
  by_cases root : number = 0
  · have entry : (DominatorTree.of graph).parents.parent? 0 = none := by
      rw [DominatorTree.of, Forest.parent?, List.getElem?_set]
      simp only [if_pos]
      split <;> rfl
    rw [root, entry] at known
    cases known
  · rw [DominatorTree.of, Forest.parent?_set_of_ne root] at known
    have nonempty : graph.reversePostorder ≠ [] := by
      intro empty
      rw [empty, numberedPredecessors, List.map_nil, Forest.solve_nil] at known
      cases known
    exact (settled nonempty).refining.ordered.lower root known

theorem dominatesWithin_eq (graph : Digraph V) {turns : Nat}
    (enough : graph.reversePostorder.length ≤ turns) (first second : V) :
    (DominatorTree.of graph).dominatesWithin turns first second =
      some ((DominatorTree.of graph).dominates first second) := by
  rw [dominatesWithin, dominates]
  cases one : (DominatorTree.of graph).position? first with
  | none => rfl
  | some source =>
    cases other : (DominatorTree.of graph).position? second with
    | none => rfl
    | some target =>
      have place := getElem?_of_positionIn? other
      have bound := (List.getElem?_eq_some_iff.mp place).1
      exact Forest.climbWithin_eq (parent_lt graph) (Nat.lt_of_lt_of_le bound enough)

/-- **The computation of a dominator tree ends, and so do its walks; and the tree is exact: one
vertex dominates another if and only if the other can be reached and every path from the entry to it
passes through the first.** -/
theorem computation_exact (graph : Digraph V) :
    (∃ enough, ∀ turns ≥ enough, ofWithin turns graph = some (DominatorTree.of graph) ∧
      ∀ first second, (DominatorTree.of graph).dominatesWithin turns first second =
        some ((DominatorTree.of graph).dominates first second)) ∧
    ∀ first second, (DominatorTree.of graph).dominates first second = true ↔
      graph.Reachable second ∧ ∀ walk, graph.PathTo second walk → first ∈ walk := by
  constructor
  · obtain ⟨enough, ends⟩ := ofWithin_eq graph
    refine ⟨enough + graph.reversePostorder.length, fun turns le => ⟨ends turns (by omega), ?_⟩⟩
    exact dominatesWithin_eq graph (by omega)
  · exact dominates_iff graph

end DominatorTree

end SsaAmd64
