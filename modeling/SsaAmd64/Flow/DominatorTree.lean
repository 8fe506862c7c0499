/-
**Dominator trees.**

The tree of immediate dominators of a graph. Vertices that cannot be reached from the entry are not
in it.

* `DominatorTree.of`: the tree of a graph;
* `DominatorTree.dominates`: whether every path from the entry to a vertex leads through another;
* `DominatorTree.dominators`: the dominators of a vertex, from the nearest on.
-/

import SsaAmd64.Flow.Digraph
import SsaAmd64.Flow.Dominance

namespace SsaAmd64

structure DominatorTree (V : Type) where
  /-- The reachable vertices in reverse postorder. -/
  vertices : List V
  /-- For each vertex the position of its immediate dominator; none for the entry. -/
  parents : Forest

namespace DominatorTree

variable {V : Type} [DecidableEq V]

/-- The position of a vertex in a list. -/
def positionIn? (vertices : List V) (vertex : V) : Option Nat :=
  vertices.findIdx? (· = vertex)

/-- The positions of the predecessors of each vertex of a reverse postorder. -/
def numberedPredecessors (graph : Digraph V) (order : List V) : List (List Nat) :=
  order.map fun vertex => (graph.predecessors vertex).filterMap (positionIn? order)

/-- The dominator tree of a graph. -/
def of (graph : Digraph V) : DominatorTree V :=
  let order := graph.reversePostorder
  ⟨order, (Forest.solve (numberedPredecessors graph order)).set 0 none⟩

/-- The entry. -/
def root? (tree : DominatorTree V) : Option V :=
  tree.vertices.head?

def position? (tree : DominatorTree V) (vertex : V) : Option Nat :=
  positionIn? tree.vertices vertex

/-- Whether a vertex can be reached from the entry. -/
def isReachable (tree : DominatorTree V) (vertex : V) : Bool :=
  (tree.position? vertex).isSome

/-- The immediate dominator of a vertex. The entry and unreachable vertices have none. -/
def idom? (tree : DominatorTree V) (vertex : V) : Option V := do
  let position ← tree.position? vertex
  let parent ← tree.parents.parent? position
  tree.vertices[parent]?

/-- The vertices that a vertex dominates immediately, in reverse postorder. -/
def children (tree : DominatorTree V) (vertex : V) : List V :=
  match tree.position? vertex with
  | some position =>
    ((List.range tree.vertices.length).filter fun child =>
      tree.parents.parent? child = some position).filterMap (tree.vertices[·]?)
  | none => []

/-- The dominators of a vertex, from the vertex itself up to the entry; strictly, without the vertex
itself. -/
def dominators (tree : DominatorTree V) (vertex : V) (strict : Bool) : List V :=
  match tree.position? vertex with
  | some position =>
    let chain := tree.parents.ancestors position
    (if strict then chain.tail else chain).filterMap (tree.vertices[·]?)
  | none => []

/-- Whether every path from the entry to the second vertex leads through the first. Nothing
dominates an unreachable vertex, and an unreachable vertex dominates nothing. -/
def dominates (tree : DominatorTree V) (first second : V) : Bool :=
  match tree.position? first, tree.position? second with
  | some ancestor, some start => (tree.parents.ancestors start).contains ancestor
  | _, _ => false

/-- Whether a vertex is dominated by another; strictly, by another than itself. -/
def dominatedBy (tree : DominatorTree V) (vertex other : V) (strict : Bool) : Bool :=
  if strict && vertex = other then false else tree.dominates other vertex

end DominatorTree

end SsaAmd64
