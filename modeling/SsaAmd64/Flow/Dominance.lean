/-
**Immediate dominators by iteration.**

Vertices are numbered along a reverse postorder, the entry being zero, so that an immediate
dominator has a smaller number than what it dominates. Starting from the entry alone, each vertex
takes the nearest common ancestor of its predecessors that have been assigned; this is repeated in
order until a sweep makes no more progress.

* `Forest.meet`: the nearest common ancestor of two vertices in the current forest;
* `Forest.sweep`: one pass over all vertices but the entry;
* `Forest.settle`: passes until nothing moves closer to the entry any more.
-/

namespace SsaAmd64

/-- For each vertex its assigned dominator, if it has one. The entry is assigned to itself. -/
abbrev Forest := List (Option Nat)

namespace Forest

/-- The assigned dominator of a vertex. -/
def parent? (forest : Forest) (vertex : Nat) : Option Nat :=
  forest[vertex]?.join

/-- The forest of `size` vertices in which only the entry is assigned. -/
def initial : (size : Nat) → Forest
  | 0 => []
  | size + 1 => some 0 :: List.replicate size none

/-- The nearest common ancestor of two vertices: the later one steps up until both are the same. -/
def meet (forest : Forest) (first second : Nat) : Nat :=
  if first = second then first
  else if second < first then
    match forest.parent? first with
    | some parent => if parent < first then meet forest parent second else first
    | none => first
  else
    match forest.parent? second with
    | some parent => if parent < second then meet forest first parent else second
    | none => second
termination_by first + second

/-- The nearest common ancestor of those predecessors that have been assigned. -/
def candidate (forest : Forest) (predecessors : List Nat) : Option Nat :=
  (predecessors.filter fun vertex => (forest.parent? vertex).isSome).foldl
    (fun found vertex =>
      match found with
      | none => some vertex
      | some current => some (forest.meet vertex current)) none

/-- Assigns a vertex anew from its predecessors. -/
def relax (forest : Forest) (vertex : Nat) (predecessors : List Nat) : Forest :=
  match forest.candidate predecessors with
  | some parent => forest.set vertex (some parent)
  | none => forest

/-- Assigns the vertices from a number on anew, in order. -/
def relaxFrom (vertex : Nat) : (predecessors : List (List Nat)) → Forest → Forest
  | [], forest => forest
  | first :: others, forest => relaxFrom (vertex + 1) others (forest.relax vertex first)

/-- Assigns all vertices but the entry anew, in order. -/
def sweep (predecessors : List (List Nat)) (forest : Forest) : Forest :=
  relaxFrom 1 predecessors.tail forest

/-- The sum of all assigned dominators, where what is not assigned counts as the number of vertices.
Progress lowers it. -/
def potential (forest : Forest) : Nat :=
  forest.foldr (fun parent total => parent.getD forest.length + total) 0

/-- Sweeps until one makes no more progress. -/
def settle (predecessors : List (List Nat)) (forest : Forest) : Forest :=
  let next := sweep predecessors forest
  if next.potential < forest.potential then settle predecessors next else next
termination_by forest.potential

/-- The assignment of dominators for the given predecessors of each vertex. -/
def solve (predecessors : List (List Nat)) : Forest :=
  settle predecessors (initial predecessors.length)

/-- A vertex and its ancestors, up to the entry. -/
def ancestors (forest : Forest) (vertex : Nat) : List Nat :=
  vertex ::
    match forest.parent? vertex with
    | some parent => if parent < vertex then ancestors forest parent else []
    | none => []
termination_by vertex

end Forest

end SsaAmd64
