/-
**The iteration towards immediate dominators.**

Vertices are numbered so that each but the entry has a predecessor with a smaller number. What
holds in the middle of a sweep is stated for the vertex that is assigned next; one lemma says that
an assignment preserves it, and sweeps and the whole iteration follow.

* `Forest.Refining`: what holds before a vertex is assigned anew;
* `Forest.Refining.relax`: assigning the vertex preserves it;
* `Forest.refining_initial`: it holds of the entry alone.
-/

import SsaAmd64.Proofs.Flow.Ancestors
import SsaAmd64.Proofs.Flow.Paths

namespace SsaAmd64

/-- The edges between numbered vertices, given by the predecessors of each. -/
def NumberedEdge (predecessors : List (List Nat)) (source target : Nat) : Prop :=
  ∃ sources, predecessors[target]? = some sources ∧ source ∈ sources

/-- Each vertex but the entry has a predecessor with a smaller number. -/
def Numbered (predecessors : List (List Nat)) : Prop :=
  ∀ {vertex sources}, vertex ≠ 0 → predecessors[vertex]? = some sources →
    ∃ source ∈ sources, source < vertex

namespace Forest

variable {forest : Forest} {predecessors : List (List Nat)} {sources : List Nat}
variable {vertex parent next found ancestor other : Nat}

theorem lt_length_of_assigned (assigned : forest.Assigned vertex) : vertex < forest.length := by
  obtain ⟨parent, known⟩ := Option.isSome_iff_exists.mp assigned
  rw [parent?, Option.join_eq_some_iff] at known
  exact (List.getElem?_eq_some_iff.mp known).1

/-! ### One assignment -/

theorem parent?_set_self (found : Nat) (inside : next < forest.length) :
    parent? (forest.set next (some found)) next = some found := by
  rw [parent?, List.getElem?_set_self inside]
  rfl

theorem parent?_set_of_ne (different : vertex ≠ next) (value : Option Nat) :
    parent? (forest.set next value) vertex = forest.parent? vertex := by
  rw [parent?, List.getElem?_set_ne different.symm, parent?]

theorem assigned_set (inside : next < forest.length) (assigned : forest.Assigned vertex) :
    Assigned (forest.set next (some found)) vertex := by
  by_cases same : vertex = next
  · rw [same]
    exact assigned_of_parent (parent?_set_self _ inside)
  · rw [Assigned, parent?_set_of_ne same]
    exact assigned

theorem assigned_of_assigned_set (different : vertex ≠ next)
    (assigned : Assigned (forest.set next (some found)) vertex) : forest.Assigned vertex := by
  rw [Assigned, parent?_set_of_ne different] at assigned
  exact assigned

/-- The ancestors of a vertex rest on the dominators assigned to it and to what comes before it, the
entry apart. -/
theorem ancestors_congr {other : Forest}
    (same : ∀ below ≤ vertex, below ≠ 0 → other.parent? below = forest.parent? below) :
    other.ancestors vertex = forest.ancestors vertex := by
  induction vertex using Nat.strongRecOn with
  | ind vertex ih =>
    by_cases root : vertex = 0
    · rw [root, ancestors_zero, ancestors_zero]
    · have here := same vertex (Nat.le_refl vertex) root
      cases known : forest.parent? vertex with
      | none => rw [ancestors, ancestors, here, known]
      | some parent =>
        by_cases lower : parent < vertex
        · rw [ancestors_of_lt known lower, ancestors_of_lt (here.trans known) lower,
            ih parent lower fun below le => same below (Nat.le_trans le (Nat.le_of_lt lower))]
        · rw [ancestors, ancestors, here, known]
          simp only [if_neg lower]

theorem ancestors_set_zero (value : Option Nat) :
    ancestors (forest.set 0 value) vertex = forest.ancestors vertex :=
  ancestors_congr fun _ _ other => parent?_set_of_ne other value

theorem ancestors_set_of_lt (value : Option Nat) (lower : vertex < next) :
    ancestors (forest.set next value) vertex = forest.ancestors vertex :=
  ancestors_congr fun _ le _ => parent?_set_of_ne (by omega) value

/-- An assignment concerns only what has the vertex among its ancestors. -/
theorem ancestors_set_of_not_mem (value : Option Nat) (apart : next ∉ forest.ancestors vertex) :
    ancestors (forest.set next value) vertex = forest.ancestors vertex := by
  induction vertex using Nat.strongRecOn with
  | ind vertex ih =>
    have different : vertex ≠ next := fun same => apart (same ▸ self_mem_ancestors forest vertex)
    cases known : forest.parent? vertex with
    | none =>
      rw [ancestors, ancestors, parent?_set_of_ne different, known]
    | some parent =>
      by_cases lower : parent < vertex
      · rw [ancestors_of_lt known lower] at apart ⊢
        have known' : parent? (forest.set next value) vertex = some parent := by
          rw [parent?_set_of_ne different, known]
        rw [ancestors_of_lt known' lower,
          ih parent lower fun member => apart (List.mem_cons_of_mem _ member)]
      · rw [ancestors, ancestors, parent?_set_of_ne different, known]
        simp only [if_neg lower]

theorem ancestors_set_self (inside : next < forest.length) (lower : found < next) :
    ancestors (forest.set next (some found)) next = next :: forest.ancestors found := by
  rw [ancestors_of_lt (parent?_set_self _ inside) lower, ancestors_set_of_lt _ lower]

/-- An assignment keeps the ancestors that do not come before the vertex. -/
theorem mem_ancestors_set_iff_of_ge (inside : next < forest.length) (lower : found < next)
    (later : next ≤ ancestor) :
    ancestor ∈ ancestors (forest.set next (some found)) vertex ↔
      ancestor ∈ forest.ancestors vertex := by
  induction vertex using Nat.strongRecOn with
  | ind vertex ih =>
    rcases Nat.lt_trichotomy vertex next with before | rfl | after
    · rw [ancestors_set_of_lt _ before]
    · rw [ancestors_set_self inside lower, List.mem_cons]
      constructor
      · rintro (rfl | above)
        · exact self_mem_ancestors forest ancestor
        · have bound := le_of_mem_ancestors above
          omega
      · intro member
        exact Or.inl (Nat.le_antisymm (le_of_mem_ancestors member) later)
    · have different : vertex ≠ next := Nat.ne_of_gt after
      cases known : forest.parent? vertex with
      | none => rw [ancestors, ancestors, parent?_set_of_ne different, known]
      | some parent =>
        by_cases less : parent < vertex
        · have known' : parent? (forest.set next (some found)) vertex = some parent := by
            rw [parent?_set_of_ne different, known]
          rw [ancestors_of_lt known less, ancestors_of_lt known' less, List.mem_cons,
            List.mem_cons, ih parent less]
        · rw [ancestors, ancestors, parent?_set_of_ne different, known]
          simp only [if_neg less]

theorem Ordered.set (ordered : Ordered forest) (inside : next < forest.length) (other : next ≠ 0)
    (lower : found < next) (assigned : forest.Assigned found) :
    Ordered (forest.set next (some found)) := by
  constructor
  case root => rw [parent?_set_of_ne other.symm, ordered.root]
  case lower =>
    intro vertex parent positive known
    by_cases same : vertex = next
    · rw [same, parent?_set_self _ inside] at known
      rw [same, ← Option.some.inj known]
      exact lower
    · rw [parent?_set_of_ne same] at known
      exact ordered.lower positive known
  case upheld =>
    intro vertex parent known
    by_cases same : vertex = next
    · rw [same, parent?_set_self _ inside] at known
      rw [← Option.some.inj known]
      exact assigned_set inside assigned
    · rw [parent?_set_of_ne same] at known
      exact assigned_set inside (ordered.upheld known)

/-! ### The middle of a sweep -/

/-- **What holds before the vertex `next` is assigned anew in a sweep.** -/
structure Refining (predecessors : List (List Nat)) (next : Nat) (forest : Forest) : Prop where
  length : forest.length = predecessors.length
  ordered : Ordered forest
  begun : ∀ {vertex}, vertex < next → vertex < predecessors.length → forest.Assigned vertex
  /-- No dominator of an assigned vertex is lost from its ancestors. -/
  complete : ∀ {vertex ancestor}, forest.Assigned vertex →
    Dominates (NumberedEdge predecessors) 0 ancestor vertex → ancestor ∈ forest.ancestors vertex
  /-- What all assigned predecessors of a vertex have as an ancestor, the vertex has as well. -/
  above : ∀ {vertex sources ancestor}, forest.Assigned vertex →
    predecessors[vertex]? = some sources → vertex ≠ 0 →
    (∀ source ∈ sources, forest.Assigned source → ancestor ∈ forest.ancestors source) →
    ancestor ∈ forest.ancestors vertex
  /-- The ancestors of a vertex are shared by the predecessors before it: all of them once the
  sweep has been there, and until then those that the sweep has still to come to. -/
  tight : ∀ {vertex sources source ancestor}, forest.Assigned vertex →
    predecessors[vertex]? = some sources → source ∈ sources → source < vertex →
    ancestor ∈ forest.ancestors vertex → ancestor ≠ vertex → (vertex < next ∨ next ≤ ancestor) →
    ancestor ∈ forest.ancestors source

namespace Refining

variable (refining : Refining predecessors next forest)

include refining in
theorem candidate_isSome (numbered : Numbered predecessors) (positive : next ≠ 0)
    (here : predecessors[next]? = some sources) : (forest.candidate sources).isSome := by
  obtain ⟨source, member, lower⟩ := numbered positive here
  have inside := (List.getElem?_eq_some_iff.mp here).1
  exact (candidate_isSome_iff forest sources).mpr
    ⟨source, member, refining.begun lower (Nat.lt_trans lower inside)⟩

include refining in
theorem candidate_lt (numbered : Numbered predecessors) (positive : next ≠ 0)
    (here : predecessors[next]? = some sources) (candidate : forest.candidate sources = some found) :
    found < next := by
  obtain ⟨source, member, lower⟩ := numbered positive here
  have inside := (List.getElem?_eq_some_iff.mp here).1
  have assigned := refining.begun lower (Nat.lt_trans lower inside)
  have shared := candidate_mem_ancestors refining.ordered candidate member assigned
  exact Nat.lt_of_le_of_lt (le_of_mem_ancestors shared) lower

include refining in
/-- A candidate is found among the ancestors of the dominator assigned before. -/
theorem candidate_mem_ancestors_parent (numbered : Numbered predecessors) (positive : next ≠ 0)
    (here : predecessors[next]? = some sources) (candidate : forest.candidate sources = some found)
    (known : forest.parent? next = some parent) : found ∈ forest.ancestors parent := by
  have shared : found ∈ forest.ancestors next :=
    refining.above (assigned_of_parent known) here positive fun source member assigned =>
      candidate_mem_ancestors refining.ordered candidate member assigned
  have lower := refining.candidate_lt numbered positive here candidate
  exact mem_ancestors_parent known shared (Nat.ne_of_lt lower)

include refining in
theorem inside (here : predecessors[next]? = some sources) : next < forest.length := by
  rw [refining.length]
  exact (List.getElem?_eq_some_iff.mp here).1

include refining in
/-- An assignment takes ancestors away and never adds any. -/
theorem mem_ancestors_of_set (numbered : Numbered predecessors) (positive : next ≠ 0)
    (here : predecessors[next]? = some sources) (candidate : forest.candidate sources = some found)
    (assigned : forest.Assigned vertex)
    (member : ancestor ∈ ancestors (forest.set next (some found)) vertex) :
    ancestor ∈ forest.ancestors vertex := by
  have lower := refining.candidate_lt numbered positive here candidate
  have inside := refining.inside here
  by_cases below : next ∈ forest.ancestors vertex
  · have known := assigned_of_mem_ancestors refining.ordered assigned below
    obtain ⟨parent, known⟩ := Option.isSome_iff_exists.mp known
    rcases Nat.lt_or_ge ancestor next with before | after
    · have stays : next ∈ ancestors (forest.set next (some found)) vertex :=
        (mem_ancestors_set_iff_of_ge inside lower (Nat.le_refl next)).mpr below
      have shared := mem_ancestors_of_le member stays (Nat.le_of_lt before)
      rw [ancestors_set_self inside lower] at shared
      have above := (List.mem_cons.mp shared).resolve_left (Nat.ne_of_lt before)
      have up := refining.candidate_mem_ancestors_parent numbered positive here candidate known
      have final := mem_ancestors_of_parent refining.ordered positive known
        (mem_ancestors_trans up above)
      exact mem_ancestors_trans below final
    · exact (mem_ancestors_set_iff_of_ge inside lower after).mp member
  · rwa [ancestors_set_of_not_mem _ below] at member

include refining in
/-- An ancestor that the predecessors before a vertex keep, the vertex keeps as well: if the
assignment concerns the vertex at all, it concerns them too. -/
theorem mem_ancestors_set (numbered : Numbered predecessors) (positive : next ≠ 0)
    (here : predecessors[next]? = some sources) (candidate : forest.candidate sources = some found)
    (after : next < vertex) (assigned : forest.Assigned vertex)
    (member : ancestor ∈ forest.ancestors vertex)
    (keep : ∀ source, NumberedEdge predecessors source vertex → source < vertex →
      Assigned (forest.set next (some found)) source →
      ancestor ∈ ancestors (forest.set next (some found)) source) :
    ancestor ∈ ancestors (forest.set next (some found)) vertex := by
  have lower := refining.candidate_lt numbered positive here candidate
  have inside := refining.inside here
  by_cases below : next ∈ forest.ancestors vertex
  · rcases Nat.lt_or_ge ancestor next with before | later
    · have bound : vertex < predecessors.length := by
        rw [← refining.length]
        exact lt_length_of_assigned assigned
      have known : predecessors[vertex]? = some predecessors[vertex] :=
        List.getElem?_eq_getElem bound
      obtain ⟨source, among, less⟩ := numbered (by omega) known
      have shared : next ∈ forest.ancestors source :=
        refining.tight assigned known among less below (Nat.ne_of_lt after) (Or.inr (Nat.le_refl _))
      have sourceAssigned : Assigned (forest.set next (some found)) source := by
        by_cases same : source = next
        · rw [same]
          exact assigned_of_parent (parent?_set_self _ inside)
        · refine assigned_set inside (Decidable.byContradiction fun unassigned => ?_)
          rw [ancestors_of_unassigned unassigned, List.mem_singleton] at shared
          exact same shared.symm
      have kept := keep source ⟨_, known, among⟩ less sourceAssigned
      have stays : ∀ {other}, next ∈ forest.ancestors other →
          next ∈ ancestors (forest.set next (some found)) other :=
        (mem_ancestors_set_iff_of_ge inside lower (Nat.le_refl next)).mpr
      have up := mem_ancestors_of_le kept (stays shared) (Nat.le_of_lt before)
      exact mem_ancestors_trans (stays below) up
    · exact (mem_ancestors_set_iff_of_ge inside lower later).mpr member
  · rwa [ancestors_set_of_not_mem _ below]

include refining in
/-- **An assignment moves the sweep on by one vertex.** -/
theorem set (numbered : Numbered predecessors) (positive : next ≠ 0)
    (here : predecessors[next]? = some sources)
    (candidate : forest.candidate sources = some found) :
    Refining predecessors (next + 1) (forest.set next (some found)) := by
  have lower := refining.candidate_lt numbered positive here candidate
  have inside := refining.inside here
  have foundAssigned := assigned_candidate refining.ordered candidate
  have common : ∀ ancestor, ancestor ∈ forest.ancestors found ↔
      ∀ source ∈ sources, forest.Assigned source → ancestor ∈ forest.ancestors source :=
    fun _ => mem_ancestors_candidate_iff refining.ordered candidate
  have self : ∀ {ancestor}, ancestor ∈ forest.ancestors found →
      ancestor ∈ ancestors (forest.set next (some found)) next := by
    intro ancestor member
    rw [ancestors_set_self inside lower]
    exact List.mem_cons_of_mem _ member
  have shrinks : ∀ vertex ancestor, forest.Assigned vertex →
      ancestor ∈ ancestors (forest.set next (some found)) vertex →
      ancestor ∈ forest.ancestors vertex :=
    fun _ _ => refining.mem_ancestors_of_set numbered positive here candidate
  constructor
  case length => rw [List.length_set, refining.length]
  case ordered => exact refining.ordered.set inside positive lower foundAssigned
  case begun =>
    intro vertex before bound
    by_cases same : vertex = next
    · rw [same]
      exact assigned_of_parent (parent?_set_self _ inside)
    · exact assigned_set inside (refining.begun (by omega) bound)
  case complete =>
    intro vertex ancestor assigned dominates
    induction vertex using Nat.strongRecOn with
    | ind vertex ih =>
      rcases Nat.lt_trichotomy vertex next with before | rfl | after
      · rw [ancestors_set_of_lt _ before]
        exact refining.complete (assigned_of_assigned_set (Nat.ne_of_lt before) assigned) dominates
      · by_cases same : ancestor = vertex
        · rw [same]
          exact self_mem_ancestors _ vertex
        · refine self ((common _).mpr fun source member known => ?_)
          exact refining.complete known (dominates.of_edge same ⟨sources, here, member⟩)
      · have known := assigned_of_assigned_set (Nat.ne_of_gt after) assigned
        by_cases same : ancestor = vertex
        · rw [same]
          exact self_mem_ancestors _ vertex
        · refine refining.mem_ancestors_set numbered positive here candidate after known
            (refining.complete known dominates) fun source joined less sourceAssigned => ?_
          exact ih source less sourceAssigned (dominates.of_edge same joined)
  case above =>
    intro vertex others ancestor assigned known other shared
    have before : ∀ source ∈ others, forest.Assigned source →
        ancestor ∈ forest.ancestors source := fun source member old =>
      shrinks source ancestor old (shared source member (assigned_set inside old))
    rcases Nat.lt_trichotomy vertex next with earlier | rfl | after
    · rw [ancestors_set_of_lt _ earlier]
      exact refining.above (assigned_of_assigned_set (Nat.ne_of_lt earlier) assigned) known other
        before
    · obtain rfl : sources = others := Option.some.inj (here.symm.trans known)
      exact self ((common _).mpr before)
    · have old := assigned_of_assigned_set (Nat.ne_of_gt after) assigned
      refine refining.mem_ancestors_set numbered positive here candidate after old
        (refining.above old known other before) ?_
      rintro source ⟨others', known', member⟩ _ sourceAssigned
      obtain rfl : others = others' := Option.some.inj (known.symm.trans known')
      exact shared source member sourceAssigned
  case tight =>
    intro vertex others source ancestor assigned known member less above different stage
    rcases Nat.lt_trichotomy vertex next with earlier | rfl | after
    · rw [ancestors_set_of_lt _ earlier] at above
      rw [ancestors_set_of_lt _ (Nat.lt_trans less earlier)]
      exact refining.tight (assigned_of_assigned_set (Nat.ne_of_lt earlier) assigned) known member
        less above different (Or.inl earlier)
    · obtain rfl : sources = others := Option.some.inj (here.symm.trans known)
      rw [ancestors_set_self inside lower] at above
      have above := (List.mem_cons.mp above).resolve_left different
      have bound := (List.getElem?_eq_some_iff.mp here).1
      rw [ancestors_set_of_lt _ less]
      exact (common _).mp above source member
        (refining.begun less (Nat.lt_trans less bound))
    · have later : next + 1 ≤ ancestor := stage.resolve_left (by omega)
      have old := assigned_of_assigned_set (Nat.ne_of_gt after) assigned
      have above := (mem_ancestors_set_iff_of_ge inside lower (by omega)).mp above
      refine (mem_ancestors_set_iff_of_ge inside lower (by omega)).mpr ?_
      exact refining.tight old known member less above different (Or.inr (by omega))

include refining in
/-- **The step of the iteration.** -/
theorem relax (numbered : Numbered predecessors) (positive : next ≠ 0)
    (here : predecessors[next]? = some sources) :
    Refining predecessors (next + 1) (forest.relax next sources) := by
  obtain ⟨found, candidate⟩ := Option.isSome_iff_exists.mp
    (refining.candidate_isSome numbered positive here)
  rw [Forest.relax, candidate]
  exact refining.set numbered positive here candidate

include refining in
/-- At the end of a sweep what held at an earlier vertex holds again. -/
theorem backTo {earlier : Nat} (before : earlier ≤ next) (finished : next = predecessors.length) :
    Refining predecessors earlier forest := by
  refine ⟨refining.length, refining.ordered, ?_, refining.complete, refining.above, ?_⟩
  · intro vertex lower bound
    exact refining.begun (Nat.lt_of_lt_of_le lower before) bound
  · intro vertex sources source ancestor assigned known member less above different _
    have inside := (List.getElem?_eq_some_iff.mp known).1
    exact refining.tight assigned known member less above different (Or.inl (by omega))

end Refining

/-- The iteration begins with the entry alone. -/
theorem refining_initial (nonempty : predecessors ≠ []) :
    Refining predecessors 1 (initial predecessors.length) := by
  obtain ⟨first, others, rfl⟩ := List.exists_cons_of_ne_nil nonempty
  have entryOnly : ∀ {vertex}, Assigned (initial (first :: others).length) vertex → vertex = 0 := by
    intro vertex assigned
    cases vertex with
    | zero => rfl
    | succ vertex =>
      obtain ⟨parent, known⟩ := Option.isSome_iff_exists.mp assigned
      rw [parent?, List.length_cons, initial, List.getElem?_cons_succ, List.getElem?_replicate]
        at known
      split at known <;> cases known
  have root : parent? (initial (first :: others).length) 0 = some 0 := rfl
  constructor
  case length => simp [initial]
  case ordered =>
    refine ⟨root, fun positive known => ?_, fun {vertex parent} known => ?_⟩
    · exact absurd (entryOnly (assigned_of_parent known)) positive
    · rw [entryOnly (assigned_of_parent known), root] at known
      cases known
      exact assigned_of_parent root
  case begun =>
    intro vertex before _
    obtain rfl : vertex = 0 := by omega
    exact assigned_of_parent root
  case complete =>
    intro vertex ancestor assigned dominates
    obtain rfl := entryOnly assigned
    rw [dominates.of_source]
    exact self_mem_ancestors _ 0
  case above => exact fun assigned _ positive => absurd (entryOnly assigned) positive
  case tight =>
    intro vertex sources source ancestor assigned _ _ less
    rw [entryOnly assigned] at less
    cases less

end Forest

end SsaAmd64
