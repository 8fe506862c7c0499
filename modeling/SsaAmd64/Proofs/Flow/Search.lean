/-
**What a depth-first search finds.**

The reverse postorder of a graph holds exactly the vertices that can be reached, it starts with the
entry, and every other place in it holds the target of an edge from an earlier place.

* `Digraph.SearchState`: what holds at every point of a search; one lemma for each of its steps;
* `Digraph.mem_reversePostorder_iff`, `Digraph.head?_reversePostorder`,
  `Digraph.exists_earlier_source`: the three facts about the finished order.
-/

import Mathlib.Data.List.Chain
import Mathlib.Tactic.Tauto
import SsaAmd64.Proofs.Flow.Paths

namespace SsaAmd64

namespace Digraph

variable {V : Type}

/-- The vertices on a search path, the one entered last first. -/
def onPath (path : List (Visit V)) : List V :=
  path.map Prod.fst

@[simp] theorem onPath_nil : onPath ([] : List (Visit V)) = [] := rfl

@[simp] theorem onPath_cons (visit : Visit V) (path : List (Visit V)) :
    onPath (visit :: path) = visit.1 :: onPath path := rfl

/-- **What holds at every point of a search.** -/
structure SearchState (graph : Digraph V) (path : List (Visit V)) (fresh left : List V) : Prop where
  /-- Only vertices that can be reached are entered. -/
  reached : ∀ vertex, vertex ∈ onPath path ++ left → graph.Reachable vertex
  /-- A vertex that is not fresh has been entered. -/
  accounted : ∀ vertex ∈ graph.vertices, vertex ∈ fresh ∨ vertex ∈ onPath path ++ left
  fresh_mem : ∀ vertex ∈ fresh, vertex ∈ graph.vertices
  /-- Nothing leads from a vertex that was left to one that was never entered. -/
  closed : ∀ vertex ∈ left, ∀ target, graph.Edge vertex target → target ∈ onPath path ++ left
  /-- From a vertex on the path only the successors still to be looked at may lead anywhere new. -/
  ahead : ∀ visit ∈ path, ∀ target, graph.Edge visit.1 target →
    target ∈ visit.2 ∨ target ∈ onPath path ++ left
  remaining : ∀ visit ∈ path, ∀ target ∈ visit.2, target ∈ graph.successors visit.1
  /-- The path is one: each vertex on it was entered from the one before. -/
  chained : path.IsChain fun later earlier => graph.Edge earlier.1 later.1
  /-- What was left was entered from the path, or from a vertex that was left after it. -/
  led : ∀ before vertex after, left = before ++ vertex :: after →
    (path = [] ∧ before = []) ∨ ∃ source ∈ onPath path ++ before, graph.Edge source vertex
  /-- The path starts at the entry, and once it is gone the entry was left last. -/
  bottom : (onPath path).getLast?.or left.head? = graph.entry?

namespace SearchState

variable {graph : Digraph V} {path : List (Visit V)} {fresh left others : List V} {vertex next : V}

theorem visited_mem (state : SearchState graph ((vertex, others) :: path) fresh left) :
    vertex ∈ graph.vertices :=
  (state.reached vertex (by simp)).mem_vertices

/-- A vertex is left once all its successors have been looked at. -/
theorem leave (state : SearchState graph ((vertex, []) :: path) fresh left) :
    SearchState graph path fresh (vertex :: left) := by
  have moved : ∀ {other}, other ∈ onPath ((vertex, []) :: path) ++ left →
      other ∈ onPath path ++ vertex :: left := by
    intro other member
    simp only [onPath_cons, List.cons_append, List.mem_cons, List.mem_append] at member ⊢
    tauto
  constructor
  case reached =>
    intro other member
    refine state.reached other ?_
    simp only [onPath_cons, List.cons_append, List.mem_cons, List.mem_append] at member ⊢
    tauto
  case accounted =>
    intro other inside
    exact (state.accounted other inside).imp_right moved
  case fresh_mem => exact state.fresh_mem
  case closed =>
    intro other member target connected
    rcases List.mem_cons.mp member with rfl | earlier
    · rcases state.ahead (other, []) List.mem_cons_self target connected with none | entered
      · cases none
      · exact moved entered
    · exact moved (state.closed other earlier target connected)
  case ahead =>
    intro visit member target connected
    exact (state.ahead visit (List.mem_cons_of_mem _ member) target connected).imp_right moved
  case remaining =>
    intro visit member
    exact state.remaining visit (List.mem_cons_of_mem _ member)
  case chained => exact state.chained.tail
  case led =>
    intro before other after split
    cases before with
    | nil =>
      -- The vertex that is left now was entered from the next one on the path.
      obtain ⟨rfl, rfl⟩ : vertex = other ∧ left = after := by simpa using split
      cases path with
      | nil => exact Or.inl ⟨rfl, rfl⟩
      | cons visit path =>
        have connected := (List.isChain_cons_cons.mp state.chained).1
        exact Or.inr ⟨visit.1, by simp, connected⟩
    | cons first before =>
      obtain ⟨rfl, rest⟩ : vertex = first ∧ left = before ++ other :: after := by simpa using split
      rcases state.led before other after rest with ⟨none, _⟩ | ⟨source, member, connected⟩
      · cases none
      · refine Or.inr ⟨source, ?_, connected⟩
        simp only [onPath_cons, List.cons_append, List.mem_cons, List.mem_append] at member ⊢
        tauto
  case bottom =>
    have before := state.bottom
    cases path with
    | nil => simpa using before
    | cons visit path =>
      obtain ⟨last, found⟩ : ∃ last, (onPath (visit :: path)).getLast? = some last :=
        ⟨_, List.getLast?_cons⟩
      rw [onPath_cons, onPath_cons, List.getLast?_cons_cons, ← onPath_cons, found] at before
      rw [found]
      exact before

/-- A fresh successor is entered. -/
theorem enter [DecidableEq V]
    (state : SearchState graph ((vertex, next :: others) :: path) fresh left)
    (member : next ∈ fresh) :
    SearchState graph ((next, graph.successors next) :: (vertex, others) :: path)
      (fresh.erase next) left := by
  have inside : next ∈ graph.vertices := state.fresh_mem next member
  have leads : next ∈ graph.successors vertex :=
    state.remaining _ List.mem_cons_self next List.mem_cons_self
  have connected : graph.Edge vertex next := ⟨state.visited_mem, inside, leads⟩
  have kept : ∀ {other}, other ∈ onPath ((vertex, next :: others) :: path) ++ left →
      other ∈ onPath ((next, graph.successors next) :: (vertex, others) :: path) ++ left :=
    fun entered => List.mem_cons_of_mem _ entered
  constructor
  case reached =>
    intro other entered
    rcases List.mem_cons.mp entered with rfl | earlier
    · exact (state.reached vertex (by simp)).of_edge connected
    · exact state.reached other earlier
  case accounted =>
    intro other known
    by_cases same : other = next
    · exact Or.inr (by simp [same])
    · exact (state.accounted other known).imp (List.mem_erase_of_ne same).mpr kept
  case fresh_mem => exact fun other found => state.fresh_mem other (List.mem_of_mem_erase found)
  case closed => exact fun other found target joined => kept (state.closed other found target joined)
  case ahead =>
    intro visit found target joined
    rcases List.mem_cons.mp found with rfl | found
    · exact Or.inl joined.2.2
    · rcases List.mem_cons.mp found with rfl | found
      · rcases state.ahead _ List.mem_cons_self target joined with left | entered
        · rcases List.mem_cons.mp left with rfl | later
          · exact Or.inr (by simp)
          · exact Or.inl later
        · exact Or.inr (kept entered)
      · exact (state.ahead visit (List.mem_cons_of_mem _ found) target joined).imp_right kept
  case remaining =>
    intro visit found target todo
    rcases List.mem_cons.mp found with rfl | found
    · exact todo
    · rcases List.mem_cons.mp found with rfl | found
      · exact state.remaining _ List.mem_cons_self target (List.mem_cons_of_mem _ todo)
      · exact state.remaining visit (List.mem_cons_of_mem _ found) target todo
  case chained =>
    refine List.isChain_cons_cons.mpr ⟨connected, ?_⟩
    cases path with
    | nil => exact List.isChain_singleton _
    | cons visit path =>
      have chained := List.isChain_cons_cons.mp state.chained
      exact List.isChain_cons_cons.mpr chained
  case led =>
    intro before other after split
    rcases state.led before other after split with ⟨none, _⟩ | ⟨source, found, joined⟩
    · cases none
    · exact Or.inr ⟨source, List.mem_cons_of_mem _ found, joined⟩
  case bottom => simpa [onPath] using state.bottom

/-- A successor that was entered before is passed over. -/
theorem skip (state : SearchState graph ((vertex, next :: others) :: path) fresh left)
    (absent : next ∉ fresh) : SearchState graph ((vertex, others) :: path) fresh left := by
  constructor
  case reached => exact state.reached
  case accounted => exact state.accounted
  case fresh_mem => exact state.fresh_mem
  case closed => exact state.closed
  case ahead =>
    intro visit found target joined
    rcases List.mem_cons.mp found with rfl | found
    · rcases state.ahead _ List.mem_cons_self target joined with todo | entered
      · rcases List.mem_cons.mp todo with rfl | later
        · exact Or.inr ((state.accounted target joined.2.1).resolve_left absent)
        · exact Or.inl later
      · exact Or.inr entered
    · exact state.ahead visit (List.mem_cons_of_mem _ found) target joined
  case remaining =>
    intro visit found target todo
    rcases List.mem_cons.mp found with rfl | found
    · exact state.remaining _ List.mem_cons_self target (List.mem_cons_of_mem _ todo)
    · exact state.remaining visit (List.mem_cons_of_mem _ found) target todo
  case chained =>
    cases path with
    | nil => exact List.isChain_singleton _
    | cons visit path =>
      exact List.isChain_cons_cons.mpr (List.isChain_cons_cons.mp state.chained)
  case led =>
    intro before other after split
    rcases state.led before other after split with ⟨none, _⟩ | found
    · cases none
    · exact Or.inr found
  case bottom => simpa [onPath] using state.bottom

/-- The search starts at the entry. -/
theorem initial [DecidableEq V] {entry : V} (vertices : graph.vertices = entry :: others) :
    SearchState graph [(entry, graph.successors entry)] (others.erase entry) [] := by
  have first : graph.entry? = some entry := by rw [Digraph.entry?, vertices]; rfl
  constructor
  case reached =>
    intro other member
    obtain rfl : other = entry := by simpa using member
    exact ⟨[other], other, first, .start⟩
  case accounted =>
    intro other inside
    rw [vertices] at inside
    by_cases same : other = entry
    · exact Or.inr (by simp [same])
    · have later := (List.mem_cons.mp inside).resolve_left same
      exact Or.inl ((List.mem_erase_of_ne same).mpr later)
  case fresh_mem =>
    intro other member
    rw [vertices]
    exact List.mem_cons_of_mem _ (List.mem_of_mem_erase member)
  case closed => exact fun _ none => nomatch none
  case ahead =>
    intro visit found target joined
    rw [List.mem_singleton.mp found] at joined ⊢
    exact Or.inl joined.2.2
  case remaining =>
    intro visit found target todo
    rw [List.mem_singleton.mp found] at todo ⊢
    exact todo
  case chained => exact List.isChain_singleton _
  case led =>
    intro before vertex after split
    cases before <;> cases split
  case bottom => simpa [onPath] using first.symm

/-- **A search ends in a state without a path.** -/
theorem search [DecidableEq V] (state : SearchState graph path fresh left) :
    ∃ rest, SearchState graph [] rest (graph.search path fresh left) := by
  induction path, fresh, left using Digraph.search.induct graph with
  | case1 fresh left =>
    unfold Digraph.search
    exact ⟨fresh, state⟩
  | case2 fresh left vertex path ih =>
    unfold Digraph.search
    exact ih state.leave
  | case3 fresh left vertex next others path member ih =>
    rw [Digraph.search, if_pos member]
    exact ih (state.enter member)
  | case4 fresh left vertex next others path absent ih =>
    rw [Digraph.search, if_neg absent]
    exact ih (state.skip absent)

end SearchState

/-! ### The finished order -/

variable [DecidableEq V]

theorem searchState_reversePostorder (graph : Digraph V) (nonempty : graph.vertices ≠ []) :
    ∃ rest, SearchState graph [] rest graph.reversePostorder := by
  cases vertices : graph.vertices with
  | nil => exact absurd vertices nonempty
  | cons entry others =>
    rw [reversePostorder, vertices]
    exact (SearchState.initial vertices).search

theorem reversePostorder_of_empty {graph : Digraph V} (empty : graph.vertices = []) :
    graph.reversePostorder = [] := by
  rw [reversePostorder, empty]

theorem head?_reversePostorder (graph : Digraph V) :
    graph.reversePostorder.head? = graph.entry? := by
  by_cases empty : graph.vertices = []
  · rw [reversePostorder_of_empty empty, entry?, empty]
  · obtain ⟨rest, state⟩ := graph.searchState_reversePostorder empty
    simpa using state.bottom

theorem reachable_of_mem_reversePostorder {graph : Digraph V} {vertex : V}
    (member : vertex ∈ graph.reversePostorder) : graph.Reachable vertex := by
  have nonempty : graph.vertices ≠ [] := by
    intro empty
    rw [reversePostorder_of_empty empty] at member
    cases member
  obtain ⟨rest, state⟩ := graph.searchState_reversePostorder nonempty
  exact state.reached vertex (by simpa using member)

/-- **The reverse postorder holds exactly the vertices that can be reached.** -/
theorem mem_reversePostorder_iff (graph : Digraph V) (vertex : V) :
    vertex ∈ graph.reversePostorder ↔ graph.Reachable vertex := by
  refine ⟨reachable_of_mem_reversePostorder, ?_⟩
  rintro ⟨visited, entry, first, path⟩
  have nonempty : graph.vertices ≠ [] := by
    intro empty
    rw [Digraph.entry?, empty] at first
    cases first
  obtain ⟨rest, state⟩ := graph.searchState_reversePostorder nonempty
  have start : entry ∈ graph.reversePostorder := by
    rw [← graph.head?_reversePostorder] at first
    exact List.mem_of_mem_head? first
  have closed : ∀ {last next}, last ∈ graph.reversePostorder → graph.Edge last next →
      next ∈ graph.reversePostorder := fun member joined => by
    simpa using state.closed _ member _ joined
  exact path.forall_mem start closed _ path.target_mem

/-- Every place of the reverse postorder but the first holds the target of an edge from an earlier
place. -/
theorem exists_earlier_source (graph : Digraph V) {index : Nat} {vertex : V}
    (found : graph.reversePostorder[index + 1]? = some vertex) :
    ∃ earlier source, earlier < index + 1 ∧ graph.reversePostorder[earlier]? = some source ∧
      graph.Edge source vertex := by
  have nonempty : graph.vertices ≠ [] := by
    intro empty
    rw [reversePostorder_of_empty empty] at found
    cases found
  obtain ⟨rest, state⟩ := graph.searchState_reversePostorder nonempty
  obtain ⟨bound, here⟩ := List.getElem?_eq_some_iff.mp found
  have split : graph.reversePostorder = graph.reversePostorder.take (index + 1) ++
      vertex :: graph.reversePostorder.drop (index + 2) := by
    rw [← here, List.getElem_cons_drop bound, List.take_append_drop]
  rcases state.led _ _ _ split with ⟨_, none⟩ | ⟨source, member, joined⟩
  · rw [List.take_eq_nil_iff] at none
    rcases none with zero | empty
    · cases zero
    · rw [empty] at found
      cases found
  · obtain ⟨earlier, small, place⟩ := List.mem_take_iff_getElem.mp (by simpa using member)
    exact ⟨earlier, source, by omega, by rw [← place]; exact List.getElem?_eq_getElem _, joined⟩

end Digraph

end SsaAmd64
