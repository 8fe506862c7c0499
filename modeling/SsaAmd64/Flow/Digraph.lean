/-
**Directed graphs with an entry.**

A graph is a list of vertices, the first of which is the entry, and the successors of each vertex in
order. Edges may be repeated and may lead back to where they start.

* `Digraph.predecessors`: the transpose of the successors, with the same multiplicities
  (`mem_predecessors_iff`);
* `Digraph.reversePostorder`: the vertices that can be reached from the entry, in the reverse of the
  order in which a depth-first search leaves them.
-/

namespace SsaAmd64

structure Digraph (V : Type) where
  vertices : List V
  successors : V → List V

namespace Digraph

variable {V : Type} [DecidableEq V]

/-- The vertex that paths start from. -/
def entry? (graph : Digraph V) : Option V :=
  graph.vertices.head?

/-- The sources of the edges into a vertex, one for each edge. -/
def predecessors (graph : Digraph V) (vertex : V) : List V :=
  graph.vertices.flatMap fun source =>
    ((graph.successors source).filter (· = vertex)).map fun _ => source

theorem mem_predecessors_iff (graph : Digraph V) (vertex source : V) :
    source ∈ graph.predecessors vertex ↔
      source ∈ graph.vertices ∧ vertex ∈ graph.successors source := by
  simp only [predecessors, List.mem_flatMap, List.mem_map, List.mem_filter, decide_eq_true_eq]
  constructor
  · rintro ⟨candidate, inside, target, ⟨edge, rfl⟩, rfl⟩
    exact ⟨inside, edge⟩
  · rintro ⟨inside, edge⟩
    exact ⟨source, inside, vertex, ⟨edge, rfl⟩, rfl⟩

/-! ### Depth-first search -/

/-- A vertex that the search has entered, with the successors it has still to look at. -/
abbrev Visit (V : Type) := V × List V

/-- What remains to be done on a search path. -/
def pending : List (Visit V) → Nat
  | [] => 0
  | visit :: path => visit.2.length + 1 + pending path

/-- Continues a depth-first search. `path` leads from the vertex entered last back to the start,
`fresh` holds the vertices not entered yet, and `left` those left already, the last one first. -/
def search (graph : Digraph V) (path : List (Visit V)) (fresh left : List V) : List V :=
  match path with
  | [] => left
  | (vertex, []) :: rest => search graph rest fresh (vertex :: left)
  | (vertex, next :: others) :: rest =>
    if next ∈ fresh then
      search graph ((next, graph.successors next) :: (vertex, others) :: rest) (fresh.erase next)
        left
    else search graph ((vertex, others) :: rest) fresh left
termination_by (fresh.length, pending path)
decreasing_by
  · exact Prod.Lex.right _ (by simp [pending])
  · exact Prod.Lex.left _ _ (by
      rename_i member
      rw [List.length_erase_of_mem member]
      exact Nat.sub_lt (List.length_pos_of_mem member) Nat.one_pos)
  · exact Prod.Lex.right _ (by simp [pending])

/-- The vertices that can be reached from the entry, each before the vertices that a depth-first
search left before it. -/
def reversePostorder (graph : Digraph V) : List V :=
  match graph.vertices with
  | [] => []
  | entry :: others => graph.search [(entry, graph.successors entry)] (others.erase entry) []

end Digraph

end SsaAmd64
