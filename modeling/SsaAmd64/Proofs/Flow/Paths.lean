/-
**Paths and dominance in a directed graph.**

A path is given by the list of all vertices that it visits, its source and its target included. One
vertex dominates another when every path from the source to the other visits it.

* `Path`: a path along the edges of a relation;
* `Path.upTo`: what a path visits before a vertex is a path to that vertex;
* `Digraph.PathTo`, `Digraph.Reachable`: paths from the entry of a graph.
-/

import SsaAmd64.Flow.Digraph

namespace SsaAmd64

/-- A path from `source` to a vertex, with the vertices it visits in order. -/
inductive Path {V : Type} (edge : V → V → Prop) (source : V) : V → List V → Prop
  | start : Path edge source source [source]
  | step {last next : V} {visited : List V} :
    Path edge source last visited → edge last next → Path edge source next (visited ++ [next])

/-- Every path from `source` to the second vertex visits the first. -/
def Dominates {V : Type} (edge : V → V → Prop) (source first second : V) : Prop :=
  ∀ visited, Path edge source second visited → first ∈ visited

namespace Path

variable {V : Type} {edge : V → V → Prop} {source target : V} {visited : List V}

theorem target_mem (path : Path edge source target visited) : target ∈ visited := by
  cases path with
  | start => exact List.mem_singleton_self _
  | step _ _ => exact List.mem_append_right _ (List.mem_singleton_self _)

theorem getLast? (path : Path edge source target visited) : visited.getLast? = some target := by
  cases path with
  | start => rfl
  | step _ _ => exact List.getLast?_concat

/-- A property of the source that edges preserve holds of all that a path visits. -/
theorem forall_mem (path : Path edge source target visited) {holds : V → Prop}
    (atSource : holds source) (along : ∀ {last next}, holds last → edge last next → holds next) :
    ∀ vertex ∈ visited, holds vertex := by
  induction path with
  | start =>
    intro vertex member
    rw [List.mem_singleton.mp member]
    exact atSource
  | step path connected ih =>
    intro vertex member
    rcases List.mem_append.mp member with earlier | last
    · exact ih vertex earlier
    · rw [List.mem_singleton.mp last]
      exact along (ih _ path.target_mem) connected

/-- The path up to a place on it. -/
theorem upTo (path : Path edge source target visited) {index : Nat} {vertex : V}
    (found : visited[index]? = some vertex) :
    Path edge source vertex (visited.take (index + 1)) := by
  induction path generalizing index with
  | start =>
    cases index with
    | zero =>
      obtain rfl : source = vertex := by simpa using found
      exact start
    | succ index => simp at found
  | @step last next visited path connected ih =>
    by_cases inside : index < visited.length
    · rw [List.getElem?_append_left inside] at found
      rw [List.take_append_of_le_length (Nat.succ_le_of_lt inside)]
      exact ih found
    · have here : index = visited.length := by
        have bound := (List.getElem?_eq_some_iff.mp found).1
        rw [List.length_append, List.length_singleton] at bound
        omega
      subst here
      obtain rfl : next = vertex := by simpa using found
      rw [List.take_of_length_le (by simp)]
      exact step path connected

/-- Two vertices that follow one another on a path are joined by an edge. -/
theorem edge_of_follows (path : Path edge source target visited) {index : Nat} {first second : V}
    (before : visited[index]? = some first) (after : visited[index + 1]? = some second) :
    edge first second := by
  have short := path.upTo after
  generalize taken : visited.take (index + 1 + 1) = prior at short
  cases short with
  | start =>
    have length := congrArg List.length taken
    rw [List.length_take, List.length_singleton] at length
    have bound := (List.getElem?_eq_some_iff.mp after).1
    omega
  | @step last _ prior path connected =>
    have bound := (List.getElem?_eq_some_iff.mp after).1
    have length := congrArg List.length taken
    rw [List.length_take, List.length_append, List.length_singleton] at length
    have size : prior.length = index + 1 := by omega
    have final : prior[index]? = some last := by
      rw [← path.getLast?, List.getLast?_eq_getElem?, size]
      rfl
    have same : (visited.take (index + 1 + 1))[index]? = visited[index]? :=
      List.getElem?_take_of_lt (by omega)
    rw [taken, List.getElem?_append_left (by omega), final, before] at same
    cases same
    exact connected

/-- What two graphs have in common: a path is carried along a map of the vertices that respects
edges. -/
theorem map {W : Type} {edge' : W → W → Prop} (path : Path edge source target visited)
    (place : V → W) (holds : V → Prop) (atSource : holds source)
    (along : ∀ {last next}, holds last → edge last next →
      holds next ∧ edge' (place last) (place next)) :
    Path edge' (place source) (place target) (visited.map place) := by
  induction path with
  | start => exact start
  | step path connected ih =>
    have reached := path.forall_mem atSource (fun held joined => (along held joined).1) _
      path.target_mem
    rw [List.map_append]
    exact step ih (along reached connected).2

end Path

/-- A vertex that dominates the target of an edge, other than the target itself, dominates its
source. -/
theorem Dominates.of_edge {V : Type} {edge : V → V → Prop} {source first last next : V}
    (dominates : Dominates edge source first next) (other : first ≠ next)
    (connected : edge last next) : Dominates edge source first last := by
  intro visited path
  rcases List.mem_append.mp (dominates _ (path.step connected)) with earlier | final
  · exact earlier
  · exact absurd (List.mem_singleton.mp final) other

theorem Dominates.of_source {V : Type} {edge : V → V → Prop} {source first : V}
    (dominates : Dominates edge source first source) : first = source :=
  List.mem_singleton.mp (dominates _ .start)

namespace Digraph

variable {V : Type}

/-- Control may pass from one vertex of the graph to another. -/
def Edge (graph : Digraph V) (source target : V) : Prop :=
  source ∈ graph.vertices ∧ target ∈ graph.vertices ∧ target ∈ graph.successors source

/-- A path from the entry of the graph. -/
def PathTo (graph : Digraph V) (target : V) (visited : List V) : Prop :=
  ∃ entry, graph.entry? = some entry ∧ Path graph.Edge entry target visited

/-- Some path leads from the entry to the vertex. -/
def Reachable (graph : Digraph V) (target : V) : Prop :=
  ∃ visited, graph.PathTo target visited

theorem Reachable.mem_vertices {graph : Digraph V} {target : V}
    (reachable : graph.Reachable target) : target ∈ graph.vertices := by
  obtain ⟨visited, entry, first, path⟩ := reachable
  have inside : entry ∈ graph.vertices := List.mem_of_mem_head? first
  exact path.forall_mem inside (fun _ connected => connected.2.1) _ path.target_mem

theorem Reachable.of_edge {graph : Digraph V} {source target : V}
    (reachable : graph.Reachable source) (connected : graph.Edge source target) :
    graph.Reachable target := by
  obtain ⟨visited, entry, first, path⟩ := reachable
  exact ⟨visited ++ [target], entry, first, path.step connected⟩

/-- Whatever lies on a path from the entry can be reached. -/
theorem PathTo.reachable {graph : Digraph V} {vertex target : V} {visited : List V}
    (path : graph.PathTo target visited) (member : vertex ∈ visited) : graph.Reachable vertex := by
  obtain ⟨entry, first, path⟩ := path
  exact path.forall_mem ⟨[entry], entry, first, .start⟩ (fun reached => reached.of_edge) vertex member

end Digraph

end SsaAmd64
