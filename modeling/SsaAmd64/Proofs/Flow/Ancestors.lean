/-
**Ancestors in a forest of assigned dominators.**

In an ordered forest every assigned vertex but the entry hangs below an assigned vertex with a
smaller number, so that the ancestors of a vertex form a chain down to the entry.

* `Forest.Ordered`: such forests;
* `Forest.mem_ancestors_of_le`: of two ancestors of one vertex the smaller is an ancestor of the
  other;
* `Forest.mem_ancestors_meet_iff`: the ancestors of a meet are the common ancestors;
* `Forest.mem_ancestors_candidate_iff`: the same for all assigned predecessors of a vertex.
-/

import SsaAmd64.Flow.Dominance

namespace SsaAmd64

namespace Forest

variable {forest : Forest} {vertex parent first second ancestor : Nat}

/-- A vertex has been assigned a dominator. -/
def Assigned (forest : Forest) (vertex : Nat) : Prop :=
  (forest.parent? vertex).isSome

instance (forest : Forest) (vertex : Nat) : Decidable (forest.Assigned vertex) :=
  inferInstanceAs (Decidable (_ = true))

theorem assigned_of_parent (found : forest.parent? vertex = some parent) :
    forest.Assigned vertex := by
  rw [Assigned, found]
  rfl

/-- **The shape of the forest at every point of the iteration.** -/
structure Ordered (forest : Forest) : Prop where
  root : forest.parent? 0 = some 0
  lower : ∀ {vertex parent}, vertex ≠ 0 → forest.parent? vertex = some parent → parent < vertex
  upheld : ∀ {vertex parent}, forest.parent? vertex = some parent → forest.Assigned parent

theorem Ordered.assigned_zero (ordered : Ordered forest) : forest.Assigned 0 :=
  assigned_of_parent ordered.root

/-- Whatever comes behind another vertex hangs below an assigned vertex before it. -/
theorem Ordered.exists_parent {earlier : Nat} (ordered : Ordered forest)
    (assigned : forest.Assigned vertex) (less : earlier < vertex) :
    ∃ parent, forest.parent? vertex = some parent ∧ parent < vertex ∧ forest.Assigned parent := by
  obtain ⟨parent, known⟩ := Option.isSome_iff_exists.mp assigned
  exact ⟨parent, known, ordered.lower (Nat.ne_of_gt (Nat.zero_lt_of_lt less)) known,
    ordered.upheld known⟩

/-! ### The chain of ancestors -/

theorem self_mem_ancestors (forest : Forest) (vertex : Nat) :
    vertex ∈ forest.ancestors vertex := by
  unfold ancestors
  exact List.mem_cons_self

theorem ancestors_of_unassigned (unassigned : ¬ forest.Assigned vertex) :
    forest.ancestors vertex = [vertex] := by
  have none : forest.parent? vertex = none := by
    rw [Assigned, Bool.not_eq_true, Option.isSome_eq_false_iff, Option.isNone_iff_eq_none]
      at unassigned
    exact unassigned
  rw [ancestors, none]

theorem ancestors_of_lt (found : forest.parent? vertex = some parent) (lower : parent < vertex) :
    forest.ancestors vertex = vertex :: forest.ancestors parent := by
  rw [ancestors, found]
  exact congrArg _ (if_pos lower)

theorem ancestors_zero (forest : Forest) : forest.ancestors 0 = [0] := by
  unfold ancestors
  cases forest.parent? 0 with
  | none => rfl
  | some parent => exact congrArg _ (if_neg (Nat.not_lt_zero parent))

theorem le_of_mem_ancestors (member : ancestor ∈ forest.ancestors vertex) : ancestor ≤ vertex := by
  induction vertex using Nat.strongRecOn with
  | ind vertex ih =>
    unfold ancestors at member
    rcases List.mem_cons.mp member with rfl | above
    · exact Nat.le_refl _
    · cases found : forest.parent? vertex with
      | none => rw [found] at above; cases above
      | some parent =>
        rw [found] at above
        by_cases lower : parent < vertex
        · have above : ancestor ∈ forest.ancestors parent := by simpa only [if_pos lower] using above
          exact Nat.le_of_lt (Nat.lt_of_le_of_lt (ih parent lower above) lower)
        · simp only [if_neg lower] at above
          cases above

theorem mem_ancestors_cases (member : ancestor ∈ forest.ancestors vertex) :
    ancestor = vertex ∨ ∃ parent, forest.parent? vertex = some parent ∧ parent < vertex ∧
      ancestor ∈ forest.ancestors parent := by
  unfold ancestors at member
  rcases List.mem_cons.mp member with same | above
  · exact Or.inl same
  · cases found : forest.parent? vertex with
    | none => rw [found] at above; cases above
    | some parent =>
      rw [found] at above
      by_cases lower : parent < vertex
      · exact Or.inr ⟨parent, rfl, lower, by simpa only [if_pos lower] using above⟩
      · simp only [if_neg lower] at above
        cases above

theorem mem_ancestors_trans (lower : second ∈ forest.ancestors vertex)
    (upper : first ∈ forest.ancestors second) : first ∈ forest.ancestors vertex := by
  induction vertex using Nat.strongRecOn with
  | ind vertex ih =>
    rcases mem_ancestors_cases lower with rfl | ⟨parent, found, less, above⟩
    · exact upper
    · rw [ancestors_of_lt found less]
      exact List.mem_cons_of_mem _ (ih parent less above)

/-- **Of two ancestors of one vertex the smaller is an ancestor of the other.** -/
theorem mem_ancestors_of_le (one : first ∈ forest.ancestors vertex)
    (other : second ∈ forest.ancestors vertex) (order : first ≤ second) :
    first ∈ forest.ancestors second := by
  induction vertex using Nat.strongRecOn with
  | ind vertex ih =>
    rcases mem_ancestors_cases other with rfl | ⟨parent, found, less, above⟩
    · exact one
    · rcases mem_ancestors_cases one with rfl | ⟨parent', found', _, above'⟩
      · have bound := le_of_mem_ancestors above
        omega
      · obtain rfl : parent = parent' := Option.some.inj (found.symm.trans found')
        exact ih parent less above' above

theorem assigned_of_mem_ancestors (ordered : Ordered forest) (assigned : forest.Assigned vertex)
    (member : ancestor ∈ forest.ancestors vertex) : forest.Assigned ancestor := by
  induction vertex using Nat.strongRecOn with
  | ind vertex ih =>
    rcases mem_ancestors_cases member with rfl | ⟨parent, found, less, above⟩
    · exact assigned
    · exact ih parent less (ordered.upheld found) above

/-- An ancestor below the vertex is an ancestor of its parent. -/
theorem mem_ancestors_parent (found : forest.parent? vertex = some parent)
    (member : ancestor ∈ forest.ancestors vertex) (other : ancestor ≠ vertex) :
    ancestor ∈ forest.ancestors parent := by
  rcases mem_ancestors_cases member with same | ⟨parent', found', _, above⟩
  · exact absurd same other
  · obtain rfl : parent = parent' := Option.some.inj (found.symm.trans found')
    exact above

theorem mem_ancestors_of_parent (ordered : Ordered forest) (other : vertex ≠ 0)
    (found : forest.parent? vertex = some parent) (member : ancestor ∈ forest.ancestors parent) :
    ancestor ∈ forest.ancestors vertex := by
  rw [ancestors_of_lt found (ordered.lower other found)]
  exact List.mem_cons_of_mem _ member

/-! ### Meets -/

@[simp] theorem meet_self (forest : Forest) (vertex : Nat) :
    forest.meet vertex vertex = vertex := by
  rw [meet, if_pos rfl]

/-- The later of two vertices steps up. -/
theorem meet_of_gt (less : second < first) (known : forest.parent? first = some parent)
    (lower : parent < first) : forest.meet first second = forest.meet parent second := by
  rw [meet, if_neg (Nat.ne_of_gt less), if_pos less, known]
  exact if_pos lower

theorem meet_of_lt (less : first < second) (known : forest.parent? second = some parent)
    (lower : parent < second) : forest.meet first second = forest.meet first parent := by
  rw [meet, if_neg (Nat.ne_of_lt less), if_neg (Nat.not_lt_of_gt less), known]
  exact if_pos lower

/-- **The ancestors of a meet are the common ancestors.** -/
theorem mem_ancestors_meet_iff (ordered : Ordered forest) (left : forest.Assigned first)
    (right : forest.Assigned second) :
    ancestor ∈ forest.ancestors (forest.meet first second) ↔
      ancestor ∈ forest.ancestors first ∧ ancestor ∈ forest.ancestors second := by
  induction first, second using Forest.meet.induct forest with
  | case1 vertex =>
    rw [meet_self, and_self]
  | case2 first second different less parent found lower ih =>
    rw [meet_of_gt less found lower, ih (ordered.upheld found) right,
      ancestors_of_lt found lower, List.mem_cons]
    refine and_congr_left fun inSecond => ⟨Or.inr, fun above => above.resolve_left ?_⟩
    rintro rfl
    exact absurd (le_of_mem_ancestors inSecond) (Nat.not_le_of_lt less)
  | case3 first second different less parent found notLower =>
    have bound : first ≠ 0 := by omega
    exact absurd (ordered.lower bound found) notLower
  | case4 first second different less none =>
    rw [Assigned, none] at left
    cases left
  | case5 first second different notLess parent found lower ih =>
    have less : first < second := by omega
    rw [meet_of_lt less found lower, ih left (ordered.upheld found),
      ancestors_of_lt found lower, List.mem_cons]
    refine and_congr_right fun inFirst => ⟨Or.inr, fun above => above.resolve_left ?_⟩
    rintro rfl
    have bound := le_of_mem_ancestors inFirst
    omega
  | case6 first second different notLess parent found notLower =>
    have bound : second ≠ 0 := by omega
    exact absurd (ordered.lower bound found) notLower
  | case7 first second different notLess none =>
    rw [Assigned, none] at right
    cases right

theorem meet_mem_ancestors (ordered : Ordered forest) (left : forest.Assigned first)
    (right : forest.Assigned second) :
    forest.meet first second ∈ forest.ancestors first ∧
      forest.meet first second ∈ forest.ancestors second :=
  (mem_ancestors_meet_iff ordered left right).mp (self_mem_ancestors forest _)

theorem assigned_meet (ordered : Ordered forest) (left : forest.Assigned first)
    (right : forest.Assigned second) : forest.Assigned (forest.meet first second) :=
  assigned_of_mem_ancestors ordered left (meet_mem_ancestors ordered left right).1

/-- **The nearest common ancestor of two vertices.** -/
structure Nearest (forest : Forest) (first second nearest : Nat) : Prop where
  left : nearest ∈ forest.ancestors first
  right : nearest ∈ forest.ancestors second
  below : ∀ {ancestor}, ancestor ∈ forest.ancestors first → ancestor ∈ forest.ancestors second →
    ancestor ∈ forest.ancestors nearest

theorem nearest_meet (ordered : Ordered forest) (left : forest.Assigned first)
    (right : forest.Assigned second) : forest.Nearest first second (forest.meet first second) :=
  ⟨(meet_mem_ancestors ordered left right).1, (meet_mem_ancestors ordered left right).2,
    fun one other => (mem_ancestors_meet_iff ordered left right).mpr ⟨one, other⟩⟩

/-! ### Candidates -/

/-- The nearest common ancestor of the vertices of a list and of one met before them. -/
def meetAll (forest : Forest) (found : Nat) (vertices : List Nat) : Nat :=
  vertices.foldl (fun found vertex => forest.meet vertex found) found

theorem candidate_eq (forest : Forest) (predecessors : List Nat) :
    forest.candidate predecessors =
      match predecessors.filter fun vertex => (forest.parent? vertex).isSome with
      | [] => none
      | first :: others => some (forest.meetAll first others) := by
  unfold candidate
  cases predecessors.filter fun vertex => (forest.parent? vertex).isSome with
  | nil => rfl
  | cons first others =>
    induction others generalizing first with
    | nil => rfl
    | cons next others ih => exact ih (forest.meet next first)

/-- What has not been assigned is passed over. -/
theorem candidate_skip (unassigned : ¬ forest.Assigned vertex) (before sources : List Nat) :
    forest.candidate (before ++ vertex :: sources) = forest.candidate (before ++ sources) := by
  have skipped : (vertex :: sources).filter (fun vertex => (forest.parent? vertex).isSome) =
      sources.filter fun vertex => (forest.parent? vertex).isSome :=
    List.filter_cons_of_neg unassigned
  rw [candidate_eq, candidate_eq, List.filter_append, List.filter_append, skipped]

theorem candidate_cons (assigned : forest.Assigned vertex) (sources : List Nat) :
    forest.candidate (vertex :: sources) = some (forest.meetAll vertex
      (sources.filter fun vertex => (forest.parent? vertex).isSome)) := by
  have kept : (vertex :: sources).filter (fun vertex => (forest.parent? vertex).isSome) =
      vertex :: sources.filter fun vertex => (forest.parent? vertex).isSome :=
    List.filter_cons_of_pos assigned
  rw [candidate_eq, kept]

/-- Two vertices give the candidate that their nearest common ancestor gives. -/
theorem candidate_meet (ordered : Ordered forest) (left : forest.Assigned first)
    (right : forest.Assigned second) (sources : List Nat) :
    forest.candidate (second :: first :: sources) =
      forest.candidate (forest.meet first second :: sources) := by
  have kept : (first :: sources).filter (fun vertex => (forest.parent? vertex).isSome) =
      first :: sources.filter fun vertex => (forest.parent? vertex).isSome :=
    List.filter_cons_of_pos left
  rw [candidate_cons right, candidate_cons (assigned_meet ordered left right), kept]
  rfl

theorem mem_ancestors_meetAll_iff (ordered : Ordered forest) {vertices : List Nat}
    (start : forest.Assigned first) (assigned : ∀ vertex ∈ vertices, forest.Assigned vertex) :
    ancestor ∈ forest.ancestors (forest.meetAll first vertices) ↔
      ∀ vertex ∈ first :: vertices, ancestor ∈ forest.ancestors vertex := by
  induction vertices generalizing first with
  | nil => rw [List.forall_mem_singleton]; rfl
  | cons next others ih =>
    have nextAssigned := assigned next List.mem_cons_self
    have step := ih (assigned_meet ordered nextAssigned start)
      (fun vertex member => assigned vertex (List.mem_cons_of_mem _ member))
    rw [List.forall_mem_cons, mem_ancestors_meet_iff ordered nextAssigned start] at step
    rw [List.forall_mem_cons, List.forall_mem_cons]
    exact step.trans ⟨fun ⟨⟨a, b⟩, c⟩ => ⟨b, a, c⟩, fun ⟨b, a, c⟩ => ⟨⟨a, b⟩, c⟩⟩

theorem candidate_isSome_iff (forest : Forest) (predecessors : List Nat) :
    (forest.candidate predecessors).isSome ↔
      ∃ vertex ∈ predecessors, forest.Assigned vertex := by
  rw [candidate_eq]
  cases known : predecessors.filter fun vertex => (forest.parent? vertex).isSome with
  | nil =>
    refine ⟨fun isSome => (nomatch isSome), ?_⟩
    rintro ⟨vertex, member, assigned⟩
    have found : vertex ∈ predecessors.filter fun vertex => (forest.parent? vertex).isSome :=
      List.mem_filter.mpr ⟨member, assigned⟩
    rw [known] at found
    cases found
  | cons first others =>
    have found : first ∈ predecessors.filter fun vertex => (forest.parent? vertex).isSome := by
      rw [known]
      exact List.mem_cons_self
    exact ⟨fun _ => ⟨first, List.mem_filter.mp found⟩, fun _ => rfl⟩

/-- **The ancestors of a candidate are the common ancestors of the assigned predecessors.** -/
theorem mem_ancestors_candidate_iff (ordered : Ordered forest) {predecessors : List Nat}
    {found : Nat} (candidate : forest.candidate predecessors = some found) :
    ancestor ∈ forest.ancestors found ↔
      ∀ vertex ∈ predecessors, forest.Assigned vertex → ancestor ∈ forest.ancestors vertex := by
  rw [candidate_eq] at candidate
  cases known : predecessors.filter fun vertex => (forest.parent? vertex).isSome with
  | nil => rw [known] at candidate; cases candidate
  | cons first others =>
    rw [known] at candidate
    obtain rfl : forest.meetAll first others = found := Option.some.inj candidate
    have assigned : ∀ vertex ∈ first :: others, forest.Assigned vertex := fun vertex member => by
      rw [← known] at member
      exact (List.mem_filter.mp member).2
    rw [mem_ancestors_meetAll_iff ordered (assigned first List.mem_cons_self)
      (fun vertex member => assigned vertex (List.mem_cons_of_mem _ member)), ← known]
    exact ⟨fun all vertex member known => all vertex (List.mem_filter.mpr ⟨member, known⟩),
      fun all vertex member => all vertex (List.mem_filter.mp member).1 (List.mem_filter.mp member).2⟩

theorem candidate_mem_ancestors (ordered : Ordered forest) {predecessors : List Nat}
    {found : Nat} (candidate : forest.candidate predecessors = some found)
    (member : vertex ∈ predecessors) (assigned : forest.Assigned vertex) :
    found ∈ forest.ancestors vertex :=
  (mem_ancestors_candidate_iff ordered candidate).mp (self_mem_ancestors forest found) vertex
    member assigned

theorem assigned_candidate (ordered : Ordered forest) {predecessors : List Nat} {found : Nat}
    (candidate : forest.candidate predecessors = some found) : forest.Assigned found := by
  have some : (forest.candidate predecessors).isSome := by rw [candidate]; rfl
  obtain ⟨vertex, member, assigned⟩ := (candidate_isSome_iff forest predecessors).mp some
  exact assigned_of_mem_ancestors ordered assigned
    (candidate_mem_ancestors ordered candidate member assigned)

end Forest

end SsaAmd64
