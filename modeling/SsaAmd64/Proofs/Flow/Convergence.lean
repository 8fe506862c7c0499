/-
**What the iteration ends in.**

Assignments move dominators towards the entry, so that each lowers the potential of the forest or
leaves the forest as it is. Sweeps therefore end, and a sweep that makes no progress has found each
vertex assigned to the nearest common ancestor of its predecessors.

* `Forest.relax_progress`: an assignment lowers the potential unless it changes nothing;
* `Forest.Settled`: a forest that no assignment changes;
* `Forest.Settled.mem_ancestors_iff`: in it the ancestors of a vertex are its dominators;
* `Forest.settled_solve`: the iteration ends in such a forest;
* `Forest.Settled.unique`: and in no other.
-/

import SsaAmd64.Proofs.Flow.Iteration

namespace SsaAmd64

namespace Forest

variable {forest : Forest} {predecessors rest : List (List Nat)} {sources : List Nat}
variable {vertex next found ancestor : Nat}

/-! ### The potential -/

/-- The sum of the assigned dominators, with `bound` for what is not assigned. -/
def weight (bound : Nat) (forest : Forest) : Nat :=
  forest.foldr (fun parent total => parent.getD bound + total) 0

theorem potential_eq_weight (forest : Forest) : forest.potential = weight forest.length forest :=
  rfl

theorem weight_set (bound found : Nat) {old : Option Nat} (here : forest[next]? = some old) :
    weight bound (forest.set next (some found)) + old.getD bound = weight bound forest + found := by
  induction forest generalizing next with
  | nil => cases here
  | cons first others ih =>
    cases next with
    | zero =>
      obtain rfl : first = old := Option.some.inj here
      simp only [weight, List.set_cons_zero, List.foldr_cons, Option.getD_some]
      omega
    | succ next =>
      have step := @ih next here
      simp only [weight, List.set_cons_succ, List.foldr_cons] at step ⊢
      omega

theorem set_of_parent (known : forest.parent? next = some found) :
    forest.set next (some found) = forest := by
  rw [parent?, Option.join_eq_some_iff] at known
  apply List.ext_getElem?
  intro index
  by_cases same : next = index
  · rw [← same, List.getElem?_set_self (List.getElem?_eq_some_iff.mp known).1, known]
  · rw [List.getElem?_set_ne same]

/-- **An assignment lowers the potential, or it changes nothing.** -/
theorem relax_progress (refining : Refining predecessors next forest)
    (numbered : Numbered predecessors) (positive : next ≠ 0)
    (here : predecessors[next]? = some sources) :
    forest.relax next sources = forest ∨ (forest.relax next sources).potential < forest.potential := by
  obtain ⟨found, candidate⟩ := Option.isSome_iff_exists.mp
    (refining.candidate_isSome numbered positive here)
  have inside := refining.inside here
  have lower := refining.candidate_lt numbered positive here candidate
  have place := List.getElem?_eq_getElem inside
  have change := weight_set forest.length found place
  rw [relax, candidate]
  simp only [potential_eq_weight, List.length_set]
  cases known : forest.parent? next with
  | none =>
    right
    have old : forest[next] = none := by
      rw [parent?, place] at known
      exact known
    rw [old, Option.getD_none] at change
    omega
  | some parent =>
    have old : forest[next] = some parent := by
      rw [parent?, place] at known
      exact known
    rw [old, Option.getD_some] at change
    have above := refining.candidate_mem_ancestors_parent numbered positive here candidate known
    have bound := le_of_mem_ancestors above
    by_cases same : found = parent
    · left
      exact set_of_parent (same ▸ known)
    · right
      omega

/-- An assignment changes nothing when the vertex has its candidate already. -/
theorem relax_eq_self_iff (refining : Refining predecessors next forest)
    (numbered : Numbered predecessors) (positive : next ≠ 0)
    (here : predecessors[next]? = some sources) :
    forest.relax next sources = forest ↔ forest.candidate sources = forest.parent? next := by
  obtain ⟨found, candidate⟩ := Option.isSome_iff_exists.mp
    (refining.candidate_isSome numbered positive here)
  rw [relax, candidate]
  constructor
  · intro same
    have set := parent?_set_self found (refining.inside here)
    rw [← set]
    exact congrArg (parent? · next) same
  · exact fun known => set_of_parent known.symm

/-! ### Sweeps -/

/-- A sweep reaches the end of the list. -/
theorem Refining.relaxFrom (refining : Refining predecessors next forest)
    (numbered : Numbered predecessors) (positive : next ≠ 0)
    (bound : next ≤ predecessors.length) :
    Refining predecessors predecessors.length
      (Forest.relaxFrom next (predecessors.drop next) forest) := by
  induction size : predecessors.length - next generalizing next forest with
  | zero =>
    obtain rfl : next = predecessors.length := by omega
    rw [List.drop_length]
    exact refining
  | succ size ih =>
    have inside : next < predecessors.length := by omega
    rw [List.drop_eq_getElem_cons inside]
    exact ih (refining.relax numbered positive (List.getElem?_eq_getElem inside))
      (Nat.succ_ne_zero next) inside (by omega)

/-- A sweep lowers the potential, or none of its assignments changes anything. -/
theorem relaxFrom_progress (refining : Refining predecessors next forest)
    (numbered : Numbered predecessors) (positive : next ≠ 0) :
    (Forest.relaxFrom next (predecessors.drop next) forest).potential < forest.potential ∨
      (Forest.relaxFrom next (predecessors.drop next) forest = forest ∧
        ∀ vertex sources, next ≤ vertex → predecessors[vertex]? = some sources →
          forest.relax vertex sources = forest) := by
  induction size : predecessors.length - next generalizing next forest with
  | zero =>
    have ended : predecessors.length ≤ next := by omega
    rw [List.drop_eq_nil_of_le ended]
    refine Or.inr ⟨rfl, fun vertex sources later known => ?_⟩
    have bound := (List.getElem?_eq_some_iff.mp known).1
    omega
  | succ size ih =>
    have inside : next < predecessors.length := by omega
    have here := List.getElem?_eq_getElem inside
    rw [List.drop_eq_getElem_cons inside]
    have rest := ih (refining.relax numbered positive here) (Nat.succ_ne_zero next) (by omega)
    rcases relax_progress refining numbered positive here with same | less
    · rw [same] at rest
      rw [Forest.relaxFrom, same]
      refine rest.imp_right fun ⟨final, fixed⟩ => ⟨final, fun vertex sources later known => ?_⟩
      by_cases first : next = vertex
      · obtain rfl : predecessors[next] = sources := by
          rw [← first, here] at known
          exact Option.some.inj known
        rw [← first, same]
      · exact fixed vertex sources (by omega) known
    · left
      unfold Forest.relaxFrom
      rcases rest with lower | ⟨final, _⟩
      · exact Nat.lt_trans lower less
      · rw [final]
        exact less

/-! ### The end of the iteration -/

/-- Forests in which all vertices have been assigned alike are the same. -/
theorem eq_of_parent? {other : Forest} (length : forest.length = other.length)
    (same : ∀ vertex < forest.length, forest.Assigned vertex ∧
      other.parent? vertex = forest.parent? vertex) : forest = other := by
  refine List.ext_getElem? fun vertex => ?_
  by_cases inside : vertex < forest.length
  · obtain ⟨assigned, equal⟩ := same vertex inside
    obtain ⟨parent, known⟩ := Option.isSome_iff_exists.mp assigned
    rw [known] at equal
    rw [parent?, Option.join_eq_some_iff] at known equal
    rw [known, equal]
  · rw [List.getElem?_eq_none (by omega), List.getElem?_eq_none (by omega)]

/-- **All vertices have been assigned, and no assignment changes the forest any more.** -/
structure Settled (predecessors : List (List Nat)) (forest : Forest) : Prop where
  refining : Refining predecessors predecessors.length forest
  fixed : ∀ {vertex sources}, vertex ≠ 0 → predecessors[vertex]? = some sources →
    forest.relax vertex sources = forest

theorem settled_settle (refining : Refining predecessors 1 forest)
    (numbered : Numbered predecessors) (nonempty : predecessors ≠ []) :
    Settled predecessors (settle predecessors forest) := by
  have bound : 1 ≤ predecessors.length := List.length_pos_iff.mpr nonempty
  induction forest using settle.induct predecessors with
  | case1 forest next progress ih =>
    rw [settle, if_pos progress]
    have finished := refining.relaxFrom numbered Nat.one_ne_zero bound
    rw [List.drop_one] at finished
    exact ih (finished.backTo bound rfl)
  | case2 forest next stuck =>
    have finished := refining.relaxFrom numbered Nat.one_ne_zero bound
    have outcome := relaxFrom_progress refining numbered Nat.one_ne_zero
    rw [List.drop_one] at finished outcome
    obtain ⟨same, fixed⟩ := outcome.resolve_left stuck
    rw [settle, if_neg stuck]
    rw [same] at finished
    have final : sweep predecessors forest = forest := same
    rw [final]
    exact ⟨finished, fun positive known => fixed _ _ (Nat.pos_of_ne_zero positive) known⟩

/-- **The iteration settles.** -/
theorem settled_solve (numbered : Numbered predecessors) (nonempty : predecessors ≠ []) :
    Settled predecessors (solve predecessors) :=
  settled_settle (refining_initial nonempty) numbered nonempty

theorem solve_nil : solve ([] : List (List Nat)) = [] := by
  rw [solve, settle]
  rfl

namespace Settled

variable (settled : Settled predecessors forest)

include settled in
theorem assigned (bound : vertex < predecessors.length) : forest.Assigned vertex :=
  settled.refining.begun bound bound

include settled in
/-- The parent of a vertex is the nearest common ancestor of its predecessors. -/
theorem candidate_eq_parent (numbered : Numbered predecessors) (positive : vertex ≠ 0)
    (here : predecessors[vertex]? = some sources) :
    forest.candidate sources = forest.parent? vertex := by
  have bound := (List.getElem?_eq_some_iff.mp here).1
  have earlier : Refining predecessors vertex forest :=
    settled.refining.backTo (Nat.le_of_lt bound) rfl
  exact (relax_eq_self_iff earlier numbered positive here).mp (settled.fixed positive here)

include settled in
/-- Each ancestor of a vertex lies on each path to it. -/
theorem dominates_of_mem_ancestors (numbered : Numbered predecessors)
    (member : ancestor ∈ forest.ancestors vertex) :
    Dominates (NumberedEdge predecessors) 0 ancestor vertex := by
  intro visited path
  induction path with
  | start =>
    rw [ancestors_zero] at member
    exact member
  | @step last next visited path connected ih =>
    by_cases same : ancestor = next
    · rw [same]
      exact List.mem_append_right _ (List.mem_singleton_self _)
    · refine List.mem_append_left _ (ih ?_)
      have positive : next ≠ 0 := by
        rintro rfl
        rw [ancestors_zero] at member
        exact same (List.mem_singleton.mp member)
      obtain ⟨sources, here, among⟩ := connected
      have bound := (List.getElem?_eq_some_iff.mp here).1
      obtain ⟨parent, known⟩ := Option.isSome_iff_exists.mp (settled.assigned bound)
      have candidate := (settled.candidate_eq_parent numbered positive here).trans known
      have up := mem_ancestors_parent known member same
      have assigned : forest.Assigned last := by
        cases path with
        | start => exact settled.refining.ordered.assigned_zero
        | step _ joined =>
          obtain ⟨_, inside, _⟩ := joined
          exact settled.assigned (List.getElem?_eq_some_iff.mp inside).1
      exact (mem_ancestors_candidate_iff settled.refining.ordered candidate).mp up last among
        assigned

include settled in
/-- **The ancestors of a vertex are its dominators.** -/
theorem mem_ancestors_iff (numbered : Numbered predecessors)
    (bound : vertex < predecessors.length) :
    ancestor ∈ forest.ancestors vertex ↔
      Dominates (NumberedEdge predecessors) 0 ancestor vertex :=
  ⟨settled.dominates_of_mem_ancestors numbered,
    settled.refining.complete (settled.assigned bound)⟩

/-- A vertex settles on the nearest of the vertices that lie on all paths to it. -/
theorem parent_le {other : Forest} {parent parent' : Nat} (settled : Settled predecessors forest)
    (settled' : Settled predecessors other) (numbered : Numbered predecessors)
    (positive : vertex ≠ 0) (known : forest.parent? vertex = some parent)
    (known' : other.parent? vertex = some parent') : parent ≤ parent' := by
  have lower := settled.refining.ordered.lower positive known
  have bound : vertex < predecessors.length := by
    rw [← settled.refining.length]
    exact lt_length_of_assigned (assigned_of_parent known)
  have member : parent ∈ forest.ancestors vertex := by
    rw [ancestors_of_lt known lower]
    exact List.mem_cons_of_mem _ (self_mem_ancestors forest parent)
  have dominates := settled.dominates_of_mem_ancestors numbered member
  have member' := (settled'.mem_ancestors_iff numbered bound).mpr dominates
  exact le_of_mem_ancestors (mem_ancestors_parent known' member' (Nat.ne_of_lt lower))

/-- **The iteration can settle in one forest only.** -/
theorem unique {other : Forest} (settled : Settled predecessors forest)
    (settled' : Settled predecessors other) (numbered : Numbered predecessors) :
    forest = other := by
  have length := settled.refining.length
  refine eq_of_parent? (length.trans settled'.refining.length.symm) fun vertex inside => ?_
  have assigned := settled.assigned (length ▸ inside)
  refine ⟨assigned, ?_⟩
  by_cases root : vertex = 0
  · rw [root, settled.refining.ordered.root, settled'.refining.ordered.root]
  · obtain ⟨parent, known⟩ := Option.isSome_iff_exists.mp assigned
    obtain ⟨parent', known'⟩ := Option.isSome_iff_exists.mp (settled'.assigned (length ▸ inside))
    rw [known, known', Nat.le_antisymm (settled.parent_le settled' numbered root known known')
      (settled'.parent_le settled numbered root known' known)]

end Settled

end Forest

end SsaAmd64
