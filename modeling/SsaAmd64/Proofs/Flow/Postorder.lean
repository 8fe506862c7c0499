/-
**What a reverse postorder orders.**

A vertex is left only after all that its edges lead to has been entered. What has been left already
is behind it in the reverse postorder; what has not is still on the search path, from where a path
leads to the vertex. So an edge that does not lead forward in the order closes a cycle.

* `Digraph.searchWithin`: the search as a loop over a stack of vertices, each with the number of its
  next successor, in a bounded number of turns;
* `Digraph.searchWithin_eq`: it ends after at most one turn for each vertex and each edge;
* `Digraph.SearchOrder`: what holds of the order at every point of a search, one lemma for each of
  its steps;
* `Digraph.ValidOrder`: what makes a list of vertices a valid order;
* `Digraph.reversePostorder_valid`: the reverse postorder is one, and the loop computes it;
* `DominatorTree.of_eq`: the tree of a graph whose reverse postorder the loop has computed;
* `Module.Built.nodup_vertices`: the graphs of a module that can be built hold each block once.
-/

import Mathlib.Data.List.Nodup
import SsaAmd64.Flow.Cfg
import SsaAmd64.Flow.DominatorTree
import SsaAmd64.Proofs.Flow.Search
import SsaAmd64.Proofs.Ir.Linked
import SsaAmd64.Proofs.Ir.Operations

namespace SsaAmd64

namespace Digraph

variable {V : Type}

/-! ### The loop -/

/-- One turn to leave each vertex, and one for each of its successors. -/
def turns (graph : Digraph V) (vertices : List V) : Nat :=
  vertices.length + (vertices.flatMap graph.successors).length

theorem turns_cons (graph : Digraph V) (vertex : V) (vertices : List V) :
    graph.turns (vertex :: vertices) =
      (graph.successors vertex).length + 1 + graph.turns vertices := by
  rw [turns, turns, List.length_cons, List.flatMap_cons, List.length_append]
  omega

theorem turns_erase [DecidableEq V] (graph : Digraph V) {vertex : V} {vertices : List V}
    (member : vertex ∈ vertices) : graph.turns vertices =
      (graph.successors vertex).length + 1 + graph.turns (vertices.erase vertex) := by
  have moved := List.perm_cons_erase member
  rw [← turns_cons, turns, turns, moved.length_eq,
    (moved.flatMap_right graph.successors).length_eq]

section

variable [DecidableEq V]

/-- Continues a search by at most `turns` turns. The stack holds each vertex on the search path, the
one entered last first, with the number of the successor that comes next. -/
def searchWithin (graph : Digraph V) :
    (turns : Nat) → (stack : List (V × Nat)) → (visited postorder : List V) → Option (List V)
  | _, [], _, postorder => some postorder.reverse
  | 0, _ :: _, _, _ => none
  | turns + 1, (vertex, next) :: stack, visited, postorder =>
    match (graph.successors vertex)[next]? with
    | some target =>
      if target ∈ graph.vertices ∧ target ∉ visited then
        searchWithin graph turns ((target, 0) :: (vertex, next + 1) :: stack) (target :: visited)
          postorder
      else searchWithin graph turns ((vertex, next + 1) :: stack) visited postorder
    | none => searchWithin graph turns stack visited (postorder ++ [vertex])

/-- The reverse postorder, computed in at most `turns` turns. -/
def reversePostorderWithin (turns : Nat) (graph : Digraph V) : Option (List V) :=
  match graph.entry? with
  | none => some []
  | some entry => graph.searchWithin turns [(entry, 0)] [entry] []

/-- A place of the stack, with the successors that are still to come. -/
def visitOf (graph : Digraph V) (place : V × Nat) : Visit V :=
  (place.1, (graph.successors place.1).drop place.2)

/-- **The loop ends**, with what the search finds. -/
theorem searchWithin_eq (graph : Digraph V) {turns : Nat} {stack : List (V × Nat)}
    {visited fresh postorder : List V} (distinct : fresh.Nodup)
    (unvisited : ∀ vertex, vertex ∈ fresh ↔ vertex ∈ graph.vertices ∧ vertex ∉ visited)
    (enough : pending (stack.map graph.visitOf) + graph.turns fresh ≤ turns) :
    graph.searchWithin turns stack visited postorder =
      some (graph.search (stack.map graph.visitOf) fresh postorder.reverse) := by
  induction turns generalizing stack visited fresh postorder with
  | zero =>
    cases stack with
    | nil => rw [searchWithin, List.map_nil, search]
    | cons place stack =>
      simp only [List.map_cons, pending] at enough
      omega
  | succ turns ih =>
    obtain _ | ⟨⟨vertex, next⟩, stack⟩ := stack
    · rw [searchWithin, List.map_nil, search]
    · rw [searchWithin, List.map_cons, visitOf]
      rw [List.map_cons, pending, visitOf] at enough
      cases found : (graph.successors vertex)[next]? with
      | none =>
        have nothing : (graph.successors vertex).drop next = [] :=
          List.drop_eq_nil_of_le (List.getElem?_eq_none_iff.mp found)
        rw [nothing, List.length_nil] at enough
        rw [nothing, search]
        refine (ih distinct unvisited (by omega)).trans ?_
        rw [List.reverse_concat]
      | some target =>
        obtain ⟨inside, here⟩ := List.getElem?_eq_some_iff.mp found
        have rest : (graph.successors vertex).drop next =
            target :: (graph.successors vertex).drop (next + 1) := by
          rw [List.drop_eq_getElem_cons inside, here]
        rw [rest, List.length_cons] at enough
        rw [rest, search]
        simp only [← unvisited target]
        by_cases new : target ∈ fresh
        · rw [if_pos new, if_pos new]
          refine ih (distinct.erase target) (fun other => ?_) ?_
          · rw [distinct.mem_erase_iff, unvisited, List.mem_cons, not_or]
            tauto
          · have paid := graph.turns_erase new
            simp only [List.map_cons, pending, visitOf, List.drop_zero] at enough ⊢
            omega
        · rw [if_neg new, if_neg new]
          refine ih distinct unvisited ?_
          simp only [List.map_cons, pending, visitOf] at enough ⊢
          omega

/-- The loop computes the reverse postorder in at most one turn for each vertex and each edge. -/
theorem reversePostorderWithin_eq {graph : Digraph V} (distinct : graph.vertices.Nodup)
    {turns : Nat} (enough : graph.turns graph.vertices ≤ turns) :
    graph.reversePostorderWithin turns = some graph.reversePostorder := by
  cases known : graph.vertices with
  | nil =>
    rw [reversePostorderWithin, Digraph.entry?, reversePostorder, known]
    rfl
  | cons entry others =>
    rw [known] at distinct enough
    have apart : entry ∉ others := (List.nodup_cons.mp distinct).1
    have start : graph.entry? = some entry := by rw [Digraph.entry?, known]; rfl
    rw [reversePostorderWithin, start, reversePostorder, known]
    simp only [List.erase_of_not_mem apart]
    refine graph.searchWithin_eq (List.nodup_cons.mp distinct).2 (fun other => ?_) ?_
    · rw [known, List.mem_cons, List.mem_singleton]
      constructor
      · intro member
        exact ⟨.inr member, fun same => apart (same ▸ member)⟩
      · rintro ⟨rfl | member, other⟩
        · exact absurd rfl other
        · exact member
    · rw [turns_cons] at enough
      simp only [List.map_cons, List.map_nil, pending, visitOf, List.drop_zero]
      omega

end

/-! ### What the order rests on -/

/-- A path leads from one vertex to another. -/
def Leads (graph : Digraph V) (source target : V) : Prop :=
  ∃ visited, Path graph.Edge source target visited

/-- From every vertex on a search path the path leads to the one entered last. -/
theorem leads_of_onPath {graph : Digraph V} {visit : Visit V} {path : List (Visit V)} {source : V}
    (chained : (visit :: path).IsChain fun later earlier => graph.Edge earlier.1 later.1)
    (member : source ∈ onPath (visit :: path)) : graph.Leads source visit.1 := by
  induction path generalizing visit with
  | nil =>
    obtain rfl : source = visit.1 := by simpa using member
    exact ⟨_, .start⟩
  | cons earlier path ih =>
    rcases List.mem_cons.mp member with rfl | member
    · exact ⟨_, .start⟩
    · obtain ⟨joined, chained⟩ := List.isChain_cons_cons.mp chained
      obtain ⟨visited, walk⟩ := ih chained member
      exact ⟨_, walk.step joined⟩

/-- **What holds of the order at every point of a search.** -/
structure SearchOrder (graph : Digraph V) (path : List (Visit V)) (fresh left : List V) : Prop where
  /-- Every vertex is at one place. -/
  distinct : (onPath path ++ (left ++ fresh)).Nodup
  /-- An edge from a vertex that was left leads to one left before it, or to one from where a path
  leads back. -/
  back : ∀ before vertex after, left = before ++ vertex :: after → ∀ target,
    graph.Edge vertex target → target ∈ after ∨ graph.Leads target vertex

namespace SearchOrder

variable {graph : Digraph V} {path : List (Visit V)} {fresh left others : List V} {vertex next : V}

/-- All successors of a vertex that is left are on the search path or were left before. -/
theorem leave (state : SearchState graph ((vertex, []) :: path) fresh left)
    (order : SearchOrder graph ((vertex, []) :: path) fresh left) :
    SearchOrder graph path fresh (vertex :: left) := by
  constructor
  case distinct => exact List.perm_middle.nodup_iff.mpr order.distinct
  case back =>
    intro before other after split target joined
    cases before with
    | nil =>
      obtain ⟨rfl, rfl⟩ : vertex = other ∧ left = after := by simpa using split
      rcases state.ahead (vertex, []) List.mem_cons_self target joined with none | entered
      · cases none
      · exact (List.mem_append.mp entered).symm.imp_right (leads_of_onPath state.chained)
    | cons first before =>
      exact order.back before other after (List.cons.inj split).2 target joined

theorem enter [DecidableEq V]
    (order : SearchOrder graph ((vertex, next :: others) :: path) fresh left)
    (member : next ∈ fresh) :
    SearchOrder graph ((next, graph.successors next) :: (vertex, others) :: path)
      (fresh.erase next) left := by
  refine ⟨?_, order.back⟩
  have moved : (vertex :: onPath path ++ (left ++ fresh)).Perm
      (next :: (vertex :: onPath path ++ (left ++ fresh.erase next))) := by
    rw [← List.append_assoc, ← List.append_assoc]
    exact ((List.perm_cons_erase member).append_left _).trans List.perm_middle
  exact moved.nodup_iff.mp order.distinct

theorem skip (order : SearchOrder graph ((vertex, next :: others) :: path) fresh left) :
    SearchOrder graph ((vertex, others) :: path) fresh left :=
  ⟨order.distinct, order.back⟩

theorem initial [DecidableEq V] {entry : V} (vertices : graph.vertices = entry :: others)
    (distinct : graph.vertices.Nodup) :
    SearchOrder graph [(entry, graph.successors entry)] (others.erase entry) [] := by
  rw [vertices, List.nodup_cons] at distinct
  refine ⟨?_, fun before vertex after split => by simp at split⟩
  rw [List.erase_of_not_mem distinct.1]
  exact List.nodup_cons.mpr distinct

/-- **A search ends in an order.** -/
theorem search [DecidableEq V] (state : SearchState graph path fresh left)
    (order : SearchOrder graph path fresh left) :
    ∃ rest, SearchOrder graph [] rest (graph.search path fresh left) := by
  induction path, fresh, left using Digraph.search.induct graph with
  | case1 fresh left =>
    unfold Digraph.search
    exact ⟨fresh, order⟩
  | case2 fresh left vertex path ih =>
    unfold Digraph.search
    exact ih state.leave (order.leave state)
  | case3 fresh left vertex next others path member ih =>
    rw [Digraph.search, if_pos member]
    exact ih (state.enter member) (order.enter member)
  | case4 fresh left vertex next others path absent ih =>
    rw [Digraph.search, if_neg absent]
    exact ih (state.skip absent) order.skip

end SearchOrder

/-! ### The finished order -/

variable [DecidableEq V] {graph : Digraph V}

theorem searchOrder_reversePostorder (distinct : graph.vertices.Nodup)
    (nonempty : graph.vertices ≠ []) :
    ∃ rest, SearchOrder graph [] rest graph.reversePostorder := by
  cases vertices : graph.vertices with
  | nil => exact absurd vertices nonempty
  | cons entry others =>
    rw [reversePostorder, vertices]
    exact (SearchOrder.initial vertices distinct).search (SearchState.initial vertices)

theorem nodup_reversePostorder (distinct : graph.vertices.Nodup) :
    graph.reversePostorder.Nodup := by
  by_cases empty : graph.vertices = []
  · rw [reversePostorder_of_empty empty]
    exact List.nodup_nil
  · obtain ⟨rest, order⟩ := searchOrder_reversePostorder distinct empty
    have placed := order.distinct
    rw [onPath_nil, List.nil_append] at placed
    exact placed.of_append_left

/-- The first of two vertices comes strictly before the second. -/
def Before (order : List V) (first second : V) : Prop :=
  [first, second].Sublist order

/-- No path leads from a vertex back to it, but the one that stays there. -/
def Acyclic (graph : Digraph V) : Prop :=
  ∀ vertex visited, Path graph.Edge vertex vertex visited → visited = [vertex]

/-- An edge that does not lead forward closes a cycle. -/
theorem leads_of_not_before (distinct : graph.vertices.Nodup) {source target : V}
    (reachable : graph.Reachable source) (joined : graph.Edge source target)
    (backward : ¬ Before graph.reversePostorder source target) : graph.Leads target source := by
  obtain ⟨rest, order⟩ :=
    searchOrder_reversePostorder distinct (List.ne_nil_of_mem reachable.mem_vertices)
  obtain ⟨before, after, split⟩ :=
    List.append_of_mem ((graph.mem_reversePostorder_iff source).mpr reachable)
  refine (order.back before source after split target joined).resolve_left fun behind => ?_
  refine backward ?_
  rw [Before, split]
  exact ((List.singleton_sublist.mpr behind).cons_cons source).trans (List.sublist_append_right _ _)

/-- Without cycles every edge leads forward. -/
theorem before_of_acyclic (distinct : graph.vertices.Nodup) (acyclic : graph.Acyclic)
    {source target : V} (reachable : graph.Reachable source) (joined : graph.Edge source target) :
    Before graph.reversePostorder source target := by
  by_contra backward
  obtain ⟨visited, path⟩ := leads_of_not_before distinct reachable joined backward
  have circle := acyclic target _ (path.step joined)
  rw [List.append_eq_singleton_iff] at circle
  rcases circle with ⟨rfl, _⟩ | ⟨_, none⟩
  · cases path.target_mem
  · cases none

/-- A vertex other than the entry has a predecessor that comes before it. -/
theorem exists_predecessor_before {vertex : V} (reachable : graph.Reachable vertex)
    (other : graph.entry? ≠ some vertex) :
    ∃ source ∈ graph.predecessors vertex, Before graph.reversePostorder source vertex := by
  have nonempty := List.ne_nil_of_mem reachable.mem_vertices
  obtain ⟨rest, state⟩ := graph.searchState_reversePostorder nonempty
  obtain ⟨before, after, split⟩ :=
    List.append_of_mem ((graph.mem_reversePostorder_iff vertex).mpr reachable)
  rcases state.led before vertex after split with ⟨_, rfl⟩ | ⟨source, member, joined⟩
  · rw [← graph.head?_reversePostorder, split] at other
    exact absurd rfl other
  · refine ⟨source, (graph.mem_predecessors_iff vertex source).mpr ⟨joined.1, joined.2.2⟩, ?_⟩
    rw [Before, split]
    exact (List.singleton_sublist.mpr member).append
      (List.singleton_sublist.mpr (List.mem_cons_self (l := after)))

/-- **What makes a list of vertices a valid order.** -/
structure ValidOrder (graph : Digraph V) (order : List V) : Prop where
  mem_iff : ∀ vertex, vertex ∈ order ↔ graph.Reachable vertex
  distinct : order.Nodup
  head? : order.head? = graph.entry?
  /-- An edge that does not lead forward closes a cycle. -/
  back : ∀ source target, graph.Reachable source → graph.Edge source target →
    ¬ Before order source target → graph.Leads target source
  /-- Without cycles every edge leads forward. -/
  forward : graph.Acyclic → ∀ source target, graph.Reachable source →
    graph.Edge source target → Before order source target
  /-- A vertex other than the entry has a predecessor that comes before it. -/
  led : ∀ vertex, graph.Reachable vertex → graph.entry? ≠ some vertex →
    ∃ source ∈ graph.predecessors vertex, Before order source vertex

/-- **The search ends, and the reverse postorder is a valid order**: it holds each vertex that can
be reached once, the entry first, and an edge leads forward in it unless it closes a cycle. -/
theorem reversePostorder_valid (graph : Digraph V) (distinct : graph.vertices.Nodup) :
    (∀ turns ≥ graph.turns graph.vertices,
      graph.reversePostorderWithin turns = some graph.reversePostorder) ∧
    ValidOrder graph graph.reversePostorder := by
  refine ⟨fun turns enough => reversePostorderWithin_eq distinct enough, ?_⟩
  constructor
  case mem_iff => exact graph.mem_reversePostorder_iff
  case distinct => exact nodup_reversePostorder distinct
  case head? => exact graph.head?_reversePostorder
  case back => exact fun source target => leads_of_not_before distinct
  case forward => exact fun acyclic source target => before_of_acyclic distinct acyclic
  case led => exact fun vertex => exists_predecessor_before

end Digraph

/-- **A dominator tree is what the iteration makes of the order that the loop computes.** -/
theorem DominatorTree.of_eq {V : Type} [DecidableEq V] {graph : Digraph V} {order : List V}
    {parents : Forest} (distinct : graph.vertices.Nodup)
    (ordered : graph.reversePostorderWithin (graph.turns graph.vertices) = some order)
    (solved : (Forest.solve (numberedPredecessors graph order)).set 0 none = parents) :
    DominatorTree.of graph = ⟨order, parents⟩ := by
  have found := graph.reversePostorderWithin_eq distinct (Nat.le_refl _)
  obtain rfl := Option.some.inj (found.symm.trans ordered)
  obtain rfl := solved
  rfl

/-- The control-flow graphs of a module that can be built hold each block once, so their
orders are valid. -/
theorem Module.Built.nodup_vertices {m : Module} (built : m.Built) (function : ValueId) :
    (Cfg.of m function).graph.vertices.Nodup := by
  have vertices : (Cfg.of m function).graph.vertices = m.blocksOf function := by
    simp [Cfg.graph, Cfg.blocks, Cfg.of, Function.comp_def]
  rw [vertices]
  exact built.linked.distinctBlocks function

/-- A graph with a loop that is entered from two sides, an edge twice, one from a block to itself,
and a block that cannot be reached. -/
def Cfg.braid : Cfg :=
  ⟨⟨0⟩, [(⟨1⟩, [⟨2⟩, ⟨3⟩]), (⟨2⟩, [⟨4⟩]), (⟨3⟩, [⟨4⟩, ⟨5⟩]), (⟨4⟩, [⟨6⟩]), (⟨5⟩, [⟨6⟩, ⟨6⟩]),
    (⟨6⟩, [⟨3⟩, ⟨6⟩]), (⟨7⟩, [⟨4⟩])]⟩

/-- A function with this graph. -/
def braidSteps : List Operation :=
  [.addFunction ⟨[], .void, false⟩ "braid",
    .addBlock ⟨0⟩ .finish "", .addBlock ⟨0⟩ .finish "", .addBlock ⟨0⟩ .finish "",
    .addBlock ⟨0⟩ .finish "", .addBlock ⟨0⟩ .finish "", .addBlock ⟨0⟩ .finish "",
    .addBlock ⟨0⟩ .finish "", .addLiteral (.ofNat 1 0),
    .insert ⟨some (.finish ⟨1⟩)⟩ (.condbr ⟨8⟩ ⟨2⟩ ⟨3⟩) "",
    .insert ⟨some (.finish ⟨2⟩)⟩ (.br ⟨4⟩) "",
    .insert ⟨some (.finish ⟨3⟩)⟩ (.condbr ⟨8⟩ ⟨4⟩ ⟨5⟩) "",
    .insert ⟨some (.finish ⟨4⟩)⟩ (.br ⟨6⟩) "",
    .insert ⟨some (.finish ⟨5⟩)⟩ (.condbr ⟨8⟩ ⟨6⟩ ⟨6⟩) "",
    .insert ⟨some (.finish ⟨6⟩)⟩ (.condbr ⟨8⟩ ⟨3⟩ ⟨6⟩) "",
    .insert ⟨some (.finish ⟨7⟩)⟩ (.br ⟨4⟩) ""]

theorem Cfg.nodup_braid : braid.graph.vertices.Nodup := by
  have same : Cfg.of (.builtBy "braid" braidSteps) ⟨0⟩ = braid :=
    congrArg (Cfg.mk ⟨0⟩) (by decide +kernel)
  rw [← same]
  exact (Module.built_builtBy "braid" braidSteps).nodup_vertices ⟨0⟩

/-- The edges from 3 to 4, from 5 to 6 and from 6 to itself do not lead forward; the block that
cannot be reached has no place. -/
theorem Digraph.reversePostorder_valid_braid : Cfg.braid.graph.vertices.Nodup ∧
    (∀ turns ≥ 18,
      Cfg.braid.graph.reversePostorderWithin turns = some [⟨1⟩, ⟨2⟩, ⟨4⟩, ⟨6⟩, ⟨3⟩, ⟨5⟩]) ∧
    ValidOrder Cfg.braid.graph [⟨1⟩, ⟨2⟩, ⟨4⟩, ⟨6⟩, ⟨3⟩, ⟨5⟩] := by
  have turns : Cfg.braid.graph.turns Cfg.braid.graph.vertices = 18 := by decide +kernel
  have valid := reversePostorder_valid Cfg.braid.graph Cfg.nodup_braid
  rw [turns] at valid
  have computed : Cfg.braid.graph.reversePostorderWithin 18 =
      some [⟨1⟩, ⟨2⟩, ⟨4⟩, ⟨6⟩, ⟨3⟩, ⟨5⟩] := by decide +kernel
  rw [valid.1 18 (Nat.le_refl 18), Option.some.injEq] at computed
  rw [computed] at valid
  exact ⟨Cfg.nodup_braid, valid.1, valid.2⟩

end SsaAmd64
