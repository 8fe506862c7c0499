/-
**The loops of the iteration end by themselves.**

The definitions of `meet` and `settle` check at each turn that they get nearer to their end. Here
are the same loops without such checks, with a number of turns that they may take. Given enough
turns they come to the end, with the same results.

* `Forest.meetWithin`: the later vertex steps up until both are the same;
* `Forest.settleWithin`: sweeps until one changes nothing;
* `Forest.climbWithin`: the walk from a vertex towards the entry;
* `Forest.settleWithin_eq`, `Forest.climbWithin_eq`: they come to the end.
-/

import SsaAmd64.Proofs.Flow.Convergence

namespace SsaAmd64

namespace Forest

/-! ### The loops -/

/-- The later of two vertices steps up until both are the same, in at most `turns` turns. -/
def meetWithin (forest : Forest) : (turns first second : Nat) → Option Nat
  | 0, _, _ => none
  | turns + 1, first, second =>
    if first = second then some first
    else if second < first then
      meetWithin forest turns ((forest.parent? first).getD first) second
    else meetWithin forest turns first ((forest.parent? second).getD second)

/-- The nearest common ancestor of a vertex met before, if any, and the assigned ones of a list. -/
def candidateWithin (forest : Forest) (turns : Nat) :
    (predecessors : List Nat) → (found : Option Nat) → Option (Option Nat)
  | [], found => some found
  | vertex :: others, found =>
    if (forest.parent? vertex).isNone then candidateWithin forest turns others found
    else
      match found with
      | none => candidateWithin forest turns others (some vertex)
      | some current => do
        let nearest ← forest.meetWithin turns vertex current
        candidateWithin forest turns others (some nearest)

/-- Assigns the vertices from a number on anew, in order, and tells whether one has changed. -/
def sweepWithin (turns vertex : Nat) :
    (predecessors : List (List Nat)) → (forest : Forest) → (changed : Bool) →
      Option (Forest × Bool)
  | [], forest, changed => some (forest, changed)
  | first :: others, forest, changed => do
    let candidate ← forest.candidateWithin turns first none
    if candidate.isSome && forest.parent? vertex != candidate then
      sweepWithin turns (vertex + 1) others (forest.set vertex candidate) true
    else sweepWithin turns (vertex + 1) others forest changed

/-- Sweeps until one changes nothing, at most as often as the last argument says. -/
def settleWithin (turns : Nat) (predecessors : List (List Nat)) (forest : Forest) :
    (sweeps : Nat) → Option Forest
  | 0 => none
  | sweeps + 1 => do
    let (next, changed) ← sweepWithin turns 1 predecessors.tail forest false
    if changed then settleWithin turns predecessors next sweeps else some next

/-- Whether one vertex is met on the way from another towards the entry. -/
def climbWithin (forest : Forest) (ancestor : Nat) : (turns : Nat) → (at? : Option Nat) → Option Bool
  | _, none => some false
  | 0, some _ => none
  | turns + 1, some vertex =>
    if vertex = ancestor then some true
    else climbWithin forest ancestor turns (forest.parent? vertex)

variable {forest : Forest} {predecessors : List (List Nat)} {sources : List Nat}
variable {vertex next found ancestor first second turns size : Nat}

/-! ### They end -/

theorem meetWithin_eq (ordered : Ordered forest) (left : forest.Assigned first)
    (right : forest.Assigned second) (enough : first + second < turns) :
    forest.meetWithin turns first second = some (forest.meet first second) := by
  induction turns generalizing first second with
  | zero => omega
  | succ turns ih =>
    rw [meetWithin]
    rcases Nat.lt_trichotomy first second with less | rfl | less
    · obtain ⟨parent, known, lower, above⟩ := ordered.exists_parent right less
      rw [if_neg (Nat.ne_of_lt less), if_neg (Nat.not_lt_of_gt less), known, Option.getD_some,
        meet_of_lt less known lower]
      exact ih left above (by omega)
    · rw [if_pos rfl, meet_self]
    · obtain ⟨parent, known, lower, above⟩ := ordered.exists_parent left less
      rw [if_neg (Nat.ne_of_gt less), if_pos less, known, Option.getD_some,
        meet_of_gt less known lower]
      exact ih above right (by omega)

theorem candidateWithin_some_eq (sources : List Nat) (ordered : Ordered forest) (start : forest.Assigned found)
    (enough : 2 * forest.length ≤ turns) :
    forest.candidateWithin turns sources (some found) =
      some (some (forest.meetAll found
        (sources.filter fun vertex => (forest.parent? vertex).isSome))) := by
  induction sources generalizing found with
  | nil => rfl
  | cons vertex others ih =>
    cases known : forest.parent? vertex with
    | none => simpa [candidateWithin, known] using ih start
    | some parent =>
      have assigned := assigned_of_parent known
      have bound := lt_length_of_assigned assigned
      have bound' := lt_length_of_assigned start
      have nearest : forest.meetWithin turns vertex found = some (forest.meet vertex found) :=
        meetWithin_eq ordered assigned start (by omega)
      have step := ih (assigned_meet ordered assigned start)
      simpa [candidateWithin, known, nearest, meetAll] using step

theorem candidateWithin_eq (sources : List Nat) (ordered : Ordered forest)
    (enough : 2 * forest.length ≤ turns) :
    forest.candidateWithin turns sources none = some (forest.candidate sources) := by
  induction sources with
  | nil => rfl
  | cons vertex others ih =>
    cases known : forest.parent? vertex with
    | none =>
      rw [candidate_eq] at ih ⊢
      simpa [candidateWithin, known] using ih
    | some parent =>
      have rest := candidateWithin_some_eq others ordered (assigned_of_parent known) enough
      rw [candidate_eq]
      simpa [candidateWithin, known] using rest

/-- The rest of a sweep ends, and tells truly whether it has made progress. -/
theorem sweepWithin_eq (refining : Refining predecessors next forest)
    (numbered : Numbered predecessors) (positive : next ≠ 0)
    (enough : 2 * predecessors.length ≤ turns) (changed : Bool) :
    sweepWithin turns next (predecessors.drop next) forest changed =
      some (relaxFrom next (predecessors.drop next) forest, changed ||
        decide ((relaxFrom next (predecessors.drop next) forest).potential < forest.potential)) := by
  induction remaining : predecessors.length - next generalizing next forest changed with
  | zero =>
    rw [List.drop_eq_nil_of_le (by omega)]
    simp [sweepWithin, relaxFrom]
  | succ remaining ih =>
    have inside : next < predecessors.length := by omega
    have here := List.getElem?_eq_getElem inside
    have moved := refining.relax numbered positive here
    have rest := fun changed => ih moved (Nat.succ_ne_zero next) changed (by omega)
    have lowers := relaxFrom_progress moved numbered (Nat.succ_ne_zero next)
    have room : 2 * forest.length ≤ turns := by
      rw [refining.length]
      exact enough
    have candidate := candidateWithin_eq predecessors[next] refining.ordered room
    have isSome := refining.candidate_isSome numbered positive here
    have fixed := relax_eq_self_iff refining numbered positive here
    rw [List.drop_eq_getElem_cons inside, sweepWithin, candidate, relaxFrom]
    simp only [Option.bind_eq_bind, Option.bind_some, isSome, Bool.true_and]
    rcases relax_progress refining numbered positive here with same | less
    · have known := fixed.mp same
      rw [same] at rest ⊢
      rw [known, bne_self_eq_false, if_neg Bool.false_ne_true]
      exact rest changed
    · have different : forest.parent? next ≠ forest.candidate predecessors[next] := fun known => by
        rw [fixed.mpr known.symm] at less
        exact Nat.lt_irrefl _ less
      have result : forest.set next (forest.candidate predecessors[next]) =
          forest.relax next predecessors[next] := by
        obtain ⟨found, some⟩ := Option.isSome_iff_exists.mp isSome
        rw [relax, some]
      have total : (relaxFrom (next + 1) (predecessors.drop (next + 1))
          (forest.relax next predecessors[next])).potential < forest.potential := by
        rcases lowers with lower | ⟨final, _⟩
        · exact Nat.lt_trans lower less
        · rw [final]
          exact less
      rw [if_pos (bne_iff_ne.mpr different), result, rest true, decide_eq_true total]
      simp only [Bool.true_or, Bool.or_true]

/-- **Sweeping ends when nothing changes any more.** -/
theorem settleWithin_eq (refining : Refining predecessors 1 forest)
    (numbered : Numbered predecessors) (nonempty : predecessors ≠ [])
    (enough : 2 * predecessors.length ≤ turns) {sweeps : Nat} (often : forest.potential < sweeps) :
    settleWithin turns predecessors forest sweeps = some (settle predecessors forest) := by
  have bound : 1 ≤ predecessors.length := List.length_pos_iff.mpr nonempty
  induction sweeps generalizing forest with
  | zero => omega
  | succ sweeps ih =>
    have once := sweepWithin_eq refining numbered Nat.one_ne_zero enough false
    have finished := refining.relaxFrom numbered Nat.one_ne_zero bound
    rw [List.drop_one, ← sweep] at once finished
    rw [settleWithin, once, settle]
    simp only [Option.bind_eq_bind, Option.bind_some, Bool.false_or]
    by_cases progress : (sweep predecessors forest).potential < forest.potential
    · rw [if_pos progress, if_pos (decide_eq_true progress)]
      exact ih (finished.backTo bound rfl) (Nat.lt_of_lt_of_le progress (by omega))
    · rw [if_neg progress, if_neg (by simpa using progress)]

/-- **The walk towards the entry ends**, if the entry has no parent. -/
theorem climbWithin_eq (ordered : ∀ {vertex parent}, forest.parent? vertex = some parent →
    parent < vertex) (enough : vertex < turns) :
    forest.climbWithin ancestor turns (some vertex) =
      some ((forest.ancestors vertex).contains ancestor) := by
  induction turns generalizing vertex with
  | zero => omega
  | succ turns ih =>
    rw [climbWithin, ancestors, List.contains_cons]
    by_cases same : vertex = ancestor
    · rw [if_pos same, beq_iff_eq.mpr same.symm, Bool.true_or]
    · rw [if_neg same, beq_eq_false_iff_ne.mpr (Ne.symm same), Bool.false_or]
      cases known : forest.parent? vertex with
      | none => cases turns <;> rfl
      | some parent =>
        have lower := ordered known
        simpa only [if_pos lower] using ih (by omega)

end Forest

end SsaAmd64
