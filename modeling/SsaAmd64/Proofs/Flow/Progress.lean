/-
**The iteration makes progress at every point.**

The three loops of the iteration are taken turn by turn, without a check that a turn gets nearer to
the end: two vertices are met by steps of the later one, the predecessors of a vertex are read one
after another, and sweeps follow each other while something changes. What holds before an assignment
holds at every turn, since the candidate that the turns work out is that of all predecessors; and
each turn lowers a measure, so that the loops end.

* `Iteration.step`: the turns;
* `Iteration.Going`, `Iteration.Going.step`: what holds at every point, and a turn preserves it and
  lowers the measure;
* `Iteration.Rises`: dominators move to their ancestors and nowhere else;
* `DominatorTree.iteration_progress`: all of it, for the numbers of a graph.
-/

import Mathlib.Logic.Relation
import SsaAmd64.Proofs.Flow.Dominators
import SsaAmd64.Proofs.Flow.Postorder

namespace SsaAmd64

namespace Iteration

open Forest

/-! ### The turns of the loops -/

/-- Where the loops are with the predecessors of a vertex. -/
inductive Stage where
  /-- The predecessors that remain, and the candidate of those before them. -/
  | scanning (sources : List Nat) (candidate : Option Nat)
  /-- Two vertices are met, and the predecessors behind them remain. -/
  | meeting (first second : Nat) (sources : List Nat)
deriving DecidableEq

/-- **A turn of the inner loops.** A vertex without a dominator would stay where it is for ever. -/
def Stage.advance (forest : Forest) : Stage → Stage
  | .scanning [] candidate => .scanning [] candidate
  | .scanning (source :: sources) candidate =>
    if (forest.parent? source).isNone then .scanning sources candidate
    else
      match candidate with
      | none => .scanning sources (some source)
      | some current => .meeting source current sources
  | .meeting first second sources =>
    if first = second then .scanning sources (some first)
    else if second < first then .meeting ((forest.parent? first).getD first) second sources
    else .meeting first ((forest.parent? second).getD second) sources

/-- A point of the iteration. -/
structure Point where
  forest : Forest
  /-- The vertex that is assigned next. -/
  vertex : Nat
  /-- Whether the sweep has changed the forest. -/
  changed : Bool
  stage : Stage
deriving DecidableEq

/-- What leads to a vertex. -/
def sourcesOf (predecessors : List (List Nat)) (vertex : Nat) : List Nat :=
  (predecessors[vertex]?).getD []

theorem getElem?_sourcesOf {predecessors : List (List Nat)} {vertex : Nat}
    (inside : vertex < predecessors.length) :
    predecessors[vertex]? = some (sourcesOf predecessors vertex) := by
  rw [sourcesOf, List.getElem?_eq_getElem inside]
  rfl

/-- The point before the predecessors of a vertex are read. -/
def Point.before (predecessors : List (List Nat)) (vertex : Nat) (forest : Forest)
    (changed : Bool) : Point :=
  ⟨forest, vertex, changed, .scanning (sourcesOf predecessors vertex) none⟩

/-- The point at which the iteration begins. -/
def Point.initial (predecessors : List (List Nat)) : Point :=
  .before predecessors 1 (Forest.initial predecessors.length) false

/-- **A turn of the iteration.** Once the predecessors of a vertex have been read, the vertex is
assigned; a sweep that has changed the forest is followed by another. -/
def step (predecessors : List (List Nat)) : Point → Option Point
  | ⟨forest, vertex, changed, .scanning [] candidate⟩ =>
    if vertex < predecessors.length then
      if candidate.isSome && forest.parent? vertex != candidate then
        some (.before predecessors (vertex + 1) (forest.set vertex candidate) true)
      else some (.before predecessors (vertex + 1) forest changed)
    else if changed then some (.before predecessors 1 forest false)
    else none
  | ⟨forest, vertex, changed, stage⟩ => some ⟨forest, vertex, changed, stage.advance forest⟩

/-- One point follows another after some turns. -/
def Leads (predecessors : List (List Nat)) : Point → Point → Prop :=
  Relation.ReflTransGen fun point next => step predecessors point = some next

/-- **All that a turn can do.** -/
inductive Turn (predecessors : List (List Nat)) : Point → Point → Prop
  | read {forest : Forest} {vertex : Nat} {changed : Bool} {stage : Stage}
    (busy : ∀ candidate, stage ≠ .scanning [] candidate) :
    Turn predecessors ⟨forest, vertex, changed, stage⟩
      ⟨forest, vertex, changed, stage.advance forest⟩
  | assign {forest : Forest} {vertex found : Nat} {changed : Bool}
    (inside : vertex < predecessors.length) (moves : forest.parent? vertex ≠ some found) :
    Turn predecessors ⟨forest, vertex, changed, .scanning [] (some found)⟩
      (.before predecessors (vertex + 1) (forest.set vertex (some found)) true)
  | keep {forest : Forest} {vertex : Nat} {changed : Bool} {candidate : Option Nat}
    (inside : vertex < predecessors.length)
    (stays : candidate = none ∨ forest.parent? vertex = candidate) :
    Turn predecessors ⟨forest, vertex, changed, .scanning [] candidate⟩
      (.before predecessors (vertex + 1) forest changed)
  | again {forest : Forest} {vertex : Nat} {candidate : Option Nat}
    (outside : predecessors.length ≤ vertex) :
    Turn predecessors ⟨forest, vertex, true, .scanning [] candidate⟩
      (.before predecessors 1 forest false)

variable {predecessors : List (List Nat)} {point next : Point} {forest : Forest}
variable {vertex parent first second source found : Nat} {sources : List Nat} {changed : Bool}
variable {stage : Stage} {candidate : Option Nat}

theorem Turn.of_step (known : step predecessors point = some next) :
    Turn predecessors point next := by
  obtain ⟨forest, vertex, changed, stage⟩ := point
  cases stage with
  | meeting first second sources =>
    obtain rfl := Option.some.inj known
    exact .read fun _ same => (nomatch same)
  | scanning sources candidate =>
    cases sources with
    | cons source sources =>
      obtain rfl := Option.some.inj known
      exact .read fun _ same => (nomatch same)
    | nil =>
      rw [step] at known
      split at known
      case isTrue inside =>
        split at known
        case isTrue moves =>
          obtain rfl := Option.some.inj known
          obtain ⟨isSome, moves⟩ := Bool.and_eq_true_iff.mp moves
          obtain ⟨found, rfl⟩ := Option.isSome_iff_exists.mp isSome
          exact .assign inside (bne_iff_ne.mp moves)
        case isFalse stays =>
          obtain rfl := Option.some.inj known
          refine .keep inside ?_
          cases candidate with
          | none => exact .inl rfl
          | some found => exact .inr (by simpa using stays)
      case isFalse outside =>
        cases changed with
        | false => cases known
        | true =>
          obtain rfl := Option.some.inj known
          exact .again (Nat.le_of_not_lt outside)

theorem of_step_eq_none (ended : step predecessors point = none) :
    predecessors.length ≤ point.vertex ∧ point.changed = false := by
  obtain ⟨forest, vertex, changed, stage⟩ := point
  cases stage with
  | meeting => cases ended
  | scanning sources candidate =>
    cases sources with
    | cons => cases ended
    | nil =>
      rw [step] at ended
      split at ended
      case isTrue => split at ended <;> cases ended
      case isFalse outside =>
        refine ⟨Nat.le_of_not_lt outside, ?_⟩
        cases changed with
        | false => rfl
        | true => cases ended

/-- The point after a number of turns, or at the end before that. -/
def after (predecessors : List (List Nat)) : Nat → Point → Point
  | 0, point => point
  | turns + 1, point =>
    match step predecessors point with
    | some next => after predecessors turns next
    | none => point

theorem leads_after (predecessors : List (List Nat)) (turns : Nat) (point : Point) :
    Leads predecessors point (after predecessors turns point) := by
  induction turns generalizing point with
  | zero => exact .refl
  | succ turns ih =>
    rw [after]
    cases known : step predecessors point with
    | none => exact .refl
    | some next => exact .head known (ih next)

/-- At its end the iteration stays. -/
theorem eq_of_leads (ended : step predecessors point = none)
    (run : Leads predecessors point next) : next = point := by
  rcases run.cases_head with same | ⟨_, known, _⟩
  · exact same.symm
  · rw [ended] at known
    cases known

/-! ### The inner loops -/

namespace Stage

theorem advance_skip (unassigned : forest.parent? source = none) (candidate : Option Nat) :
    (scanning (source :: sources) candidate).advance forest = scanning sources candidate := by
  simp [advance, unassigned]

theorem advance_take (assigned : forest.parent? source = some parent) :
    (scanning (source :: sources) none).advance forest = scanning sources (some source) := by
  simp [advance, assigned]

theorem advance_call (assigned : forest.parent? source = some parent) :
    (scanning (source :: sources) (some found)).advance forest = meeting source found sources := by
  simp [advance, assigned]

theorem advance_met (forest : Forest) (found : Nat) (sources : List Nat) :
    (meeting found found sources).advance forest = scanning sources (some found) := by
  simp [advance]

theorem advance_of_gt (less : second < first) (known : forest.parent? first = some parent) :
    (meeting first second sources).advance forest = meeting parent second sources := by
  simp [advance, known, Nat.ne_of_gt less, less]

theorem advance_of_lt (less : first < second) (known : forest.parent? second = some parent) :
    (meeting first second sources).advance forest = meeting first parent sources := by
  simp [advance, known, Nat.ne_of_lt less, Nat.not_lt_of_gt less]

/-- The vertices at hand that a candidate is to come from. -/
def held : Stage → List Nat
  | scanning _ candidate => candidate.toList
  | meeting first second _ => [second, first]

/-- The predecessors that remain. -/
def rest : Stage → List Nat
  | scanning sources _ => sources
  | meeting _ _ sources => sources

/-- How far a stage is from the end of its loops: the predecessors that remain, and how far the two
vertices that are met can step up. -/
def effort : Stage → Nat × Nat
  | scanning sources _ => (sources.length, 0)
  | meeting first second sources => (sources.length, first + second + 1)

/-- **What holds while the predecessors of a vertex are read**: the vertices at hand have been
assigned, and with the predecessors that remain they have the candidate of all. -/
structure Holds (forest : Forest) (sources : List Nat) (stage : Stage) : Prop where
  assigned : ∀ vertex ∈ stage.held, forest.Assigned vertex
  candidate : forest.candidate (stage.held ++ stage.rest) = forest.candidate sources

/-- **A turn of the inner loops preserves what holds, and it takes them closer to their end.** -/
theorem Holds.advance (holds : stage.Holds forest sources) (ordered : Ordered forest)
    (busy : ∀ candidate, stage ≠ scanning [] candidate) :
    (stage.advance forest).Holds forest sources ∧
      WellFoundedRelation.rel (stage.advance forest).effort stage.effort := by
  obtain ⟨assigned, candidate⟩ := holds
  cases stage with
  | scanning others current =>
    cases others with
    | nil => exact absurd rfl (busy current)
    | cons source others =>
      have less : others.length < (source :: others).length := Nat.lt_succ_self _
      cases known : forest.parent? source with
      | none =>
        have unassigned : ¬ forest.Assigned source := by simp [Assigned, known]
        rw [advance_skip known]
        exact ⟨⟨assigned, (candidate_skip unassigned _ _).symm.trans candidate⟩, .left _ _ less⟩
      | some parent =>
        have here := assigned_of_parent known
        cases current with
        | none =>
          rw [advance_take known]
          exact ⟨⟨List.forall_mem_singleton.mpr here, candidate⟩, .left _ _ less⟩
        | some found =>
          have before := assigned found (List.mem_singleton_self found)
          rw [advance_call known]
          exact ⟨⟨List.forall_mem_cons.mpr ⟨before, List.forall_mem_singleton.mpr here⟩, candidate⟩,
            .left _ _ less⟩
  | meeting first second others =>
    have right := assigned second List.mem_cons_self
    have left := assigned first (List.mem_cons_of_mem _ (List.mem_singleton_self first))
    have meets : forest.candidate (forest.meet first second :: others) =
        forest.candidate sources := (candidate_meet ordered left right others).symm.trans candidate
    rcases Nat.lt_trichotomy first second with less | rfl | less
    · obtain ⟨parent, known, lower, above⟩ := ordered.exists_parent right less
      rw [meet_of_lt less known lower, ← candidate_meet ordered left above] at meets
      rw [advance_of_lt less known]
      exact ⟨⟨List.forall_mem_cons.mpr ⟨above, List.forall_mem_singleton.mpr left⟩, meets⟩,
        .right _ (show first + parent + 1 < first + second + 1 by omega)⟩
    · rw [meet_self] at meets
      rw [advance_met]
      exact ⟨⟨List.forall_mem_singleton.mpr left, meets⟩, .right _ (Nat.succ_pos _)⟩
    · obtain ⟨parent, known, lower, above⟩ := ordered.exists_parent left less
      rw [meet_of_gt less known lower, ← candidate_meet ordered above right] at meets
      rw [advance_of_gt less known]
      exact ⟨⟨List.forall_mem_cons.mpr ⟨right, List.forall_mem_singleton.mpr above⟩, meets⟩,
        .right _ (show parent + second + 1 < first + second + 1 by omega)⟩

end Stage

/-- **The loop that meets two vertices ends at their nearest common ancestor**, if all that it comes
by has been assigned. -/
theorem leads_meeting (ordered : Ordered forest) (left : forest.Assigned first)
    (right : forest.Assigned second) :
    Leads predecessors ⟨forest, vertex, changed, .meeting first second sources⟩
      ⟨forest, vertex, changed, .scanning sources (some (forest.meet first second))⟩ := by
  have turn : step predecessors ⟨forest, vertex, changed, .meeting first second sources⟩ =
      some ⟨forest, vertex, changed, (Stage.meeting first second sources).advance forest⟩ := rfl
  induction distance : first + second using Nat.strongRecOn generalizing first second with
  | ind distance ih =>
    rcases Nat.lt_trichotomy first second with less | rfl | less
    · obtain ⟨parent, known, lower, above⟩ := ordered.exists_parent right less
      rw [Stage.advance_of_lt less known] at turn
      rw [meet_of_lt less known lower]
      exact .head turn (ih _ (by omega) left above rfl rfl)
    · rw [Stage.advance_met] at turn
      rw [meet_self]
      exact .single turn
    · obtain ⟨parent, known, lower, above⟩ := ordered.exists_parent left less
      rw [Stage.advance_of_gt less known] at turn
      rw [meet_of_gt less known lower]
      exact .head turn (ih _ (by omega) above right rfl rfl)

/-! ### The sweeps -/

/-- **What holds at every point of the iteration.** -/
structure Going (predecessors : List (List Nat)) (point : Point) : Prop where
  positive : point.vertex ≠ 0
  bound : point.vertex ≤ predecessors.length
  refining : Refining predecessors point.vertex point.forest
  reading : point.stage.Holds point.forest (sourcesOf predecessors point.vertex)
  /-- What a sweep has come by without a change has its candidate. -/
  quiet : point.changed = false → ∀ {vertex sources}, vertex ≠ 0 → vertex < point.vertex →
    predecessors[vertex]? = some sources → point.forest.relax vertex sources = point.forest

/-- How far a point is from the end: dominators that can still move, the sweep after a change, the
vertices to come, and the inner loops. -/
def Point.effort (predecessors : List (List Nat)) (point : Point) : Nat × Nat × Nat × Nat × Nat :=
  (point.forest.potential, point.changed.toNat, predecessors.length - point.vertex,
    point.stage.effort)

namespace Going

/-- Before the predecessors of a vertex are read nothing is at hand. -/
theorem before (positive : vertex ≠ 0) (bound : vertex ≤ predecessors.length)
    (refining : Refining predecessors vertex forest)
    (quiet : changed = false → ∀ {earlier sources}, earlier ≠ 0 → earlier < vertex →
      predecessors[earlier]? = some sources → forest.relax earlier sources = forest) :
    Going predecessors (.before predecessors vertex forest changed) :=
  ⟨positive, bound, refining, ⟨fun _ member => (nomatch member), rfl⟩, quiet⟩

theorem initial (nonempty : predecessors ≠ []) : Going predecessors (.initial predecessors) :=
  .before Nat.one_ne_zero (List.length_pos_iff.mpr nonempty) (refining_initial nonempty)
    fun _ _ _ positive less => absurd less (by omega)

/-- Once the predecessors have been read, the candidate is that of all. -/
theorem candidate_eq
    (going : Going predecessors ⟨forest, vertex, changed, .scanning [] candidate⟩) :
    forest.candidate (sourcesOf predecessors vertex) = candidate := by
  have read := going.reading.candidate
  cases candidate with
  | none => exact read.symm
  | some found =>
    have assigned := going.reading.assigned found (List.mem_singleton_self found)
    exact read.symm.trans (candidate_cons assigned [])

/-- A vertex that is given another dominator is assigned anew. -/
theorem relax_eq_set
    (going : Going predecessors ⟨forest, vertex, changed, .scanning [] (some found)⟩) :
    forest.relax vertex (sourcesOf predecessors vertex) = forest.set vertex (some found) := by
  rw [relax, going.candidate_eq]

/-- A vertex that is passed over has its candidate already. -/
theorem relax_eq_self
    (going : Going predecessors ⟨forest, vertex, changed, .scanning [] candidate⟩)
    (numbered : Numbered predecessors) (inside : vertex < predecessors.length)
    (stays : candidate = none ∨ forest.parent? vertex = candidate) :
    forest.relax vertex (sourcesOf predecessors vertex) = forest := by
  have here := getElem?_sourcesOf inside
  have isSome := going.refining.candidate_isSome numbered going.positive here
  refine (relax_eq_self_iff going.refining numbered going.positive here).mpr ?_
  rw [going.candidate_eq] at isSome ⊢
  rcases stays with rfl | known
  · cases isSome
  · exact known.symm

/-- **A turn preserves what holds, and it lowers the effort that is left.** -/
theorem step (going : Going predecessors point) (numbered : Numbered predecessors)
    (turn : Turn predecessors point next) :
    Going predecessors next ∧
      WellFoundedRelation.rel (next.effort predecessors) (point.effort predecessors) := by
  cases turn with
  | @read forest vertex changed stage busy =>
    obtain ⟨reading, closer⟩ := going.reading.advance going.refining.ordered busy
    exact ⟨⟨going.positive, going.bound, going.refining, reading, going.quiet⟩,
      .right _ (.right _ (.right _ closer))⟩
  | @assign forest vertex found changed inside moves =>
    have here := getElem?_sourcesOf inside
    have moved := going.refining.relax numbered going.positive here
    have progress := relax_progress going.refining numbered going.positive here
    rw [going.relax_eq_set] at moved progress
    -- the forest has changed, so that its potential is lower, whatever the turns behind it take
    have known := parent?_set_self found (going.refining.inside here)
    have less := progress.resolve_left fun same =>
      moves ((congrArg (parent? · vertex) same).symm.trans known)
    exact ⟨before (Nat.succ_ne_zero vertex) inside moved fun quiet => (nomatch quiet),
      .left _ _ less⟩
  | @keep forest vertex changed candidate inside stays =>
    have here := getElem?_sourcesOf inside
    have same := going.relax_eq_self numbered inside stays
    have moved := going.refining.relax numbered going.positive here
    rw [same] at moved
    refine ⟨before (Nat.succ_ne_zero vertex) inside moved ?_,
      .right _ (.right _ (.left _ _ (Nat.sub_succ_lt_self _ _ inside)))⟩
    intro quiet earlier sources positive less there
    rcases Nat.lt_succ_iff_lt_or_eq.mp less with sooner | rfl
    · exact going.quiet quiet positive sooner there
    · rw [here] at there
      rw [← Option.some.inj there, same]
  | @again forest vertex candidate outside =>
    -- the mark of the change is taken back, which the change itself has paid for
    have finished : vertex = predecessors.length := Nat.le_antisymm going.bound outside
    have positive := Nat.pos_of_ne_zero going.positive
    exact ⟨before Nat.one_ne_zero (finished ▸ positive) (going.refining.backTo positive finished)
      fun _ _ _ positive less => absurd less (by omega), .right _ (.left _ _ Nat.zero_lt_one)⟩

/-- A turn assigns the vertex anew and goes on to the next, or it leaves the forest as it is. -/
theorem forest_of_turn (going : Going predecessors point) (numbered : Numbered predecessors)
    (turn : Turn predecessors point next) :
    next.forest = if next.vertex = point.vertex + 1 then
      point.forest.relax point.vertex (sourcesOf predecessors point.vertex) else point.forest := by
  cases turn with
  | read busy => exact (if_neg (Nat.ne_of_lt (Nat.lt_succ_self _))).symm
  | assign inside moves => exact going.relax_eq_set.symm.trans (if_pos rfl).symm
  | keep inside stays =>
    exact (going.relax_eq_self numbered inside stays).symm.trans (if_pos rfl).symm
  | again outside =>
    have positive := going.positive
    exact (if_neg fun same => positive (Nat.succ.inj same).symm).symm

/-- **The iteration comes to its end from every point**, in the forest that is meant. -/
theorem ends {point : Point} (going : Going predecessors point)
    (numbered : Numbered predecessors) :
    ∃ final, Leads predecessors point final ∧ Iteration.step predecessors final = none ∧
      final.forest = solve predecessors := by
  cases known : Iteration.step predecessors point with
  | none =>
    obtain ⟨finished, quiet⟩ := of_step_eq_none known
    have nonempty : predecessors ≠ [] := List.length_pos_iff.mp
      (Nat.lt_of_lt_of_le (Nat.pos_of_ne_zero going.positive) going.bound)
    have whole : point.vertex = predecessors.length := Nat.le_antisymm going.bound finished
    -- a sweep without a change has found each vertex with its candidate
    have settled : Settled predecessors point.forest :=
      ⟨whole ▸ going.refining, fun positive here => going.quiet quiet positive
        (whole ▸ (List.getElem?_eq_some_iff.mp here).1) here⟩
    exact ⟨point, .refl, known, settled.unique (settled_solve numbered nonempty) numbered⟩
  | some next =>
    obtain ⟨going', less⟩ := going.step numbered (.of_step known)
    obtain ⟨final, leads, ended⟩ := ends going' numbered
    exact ⟨final, .head known leads, ended⟩
termination_by point.effort predecessors
decreasing_by exact less

end Going

/-! ### Dominators that move -/

/-- **Dominators move to their ancestors**, and no vertex gets an ancestor that it had not. -/
structure Rises (earlier later : Forest) : Prop where
  parent : ∀ {vertex parent}, earlier.parent? vertex = some parent →
    ∃ parent', later.parent? vertex = some parent' ∧ parent' ∈ earlier.ancestors parent
  ancestors : ∀ {vertex ancestor}, earlier.Assigned vertex →
    ancestor ∈ later.ancestors vertex → ancestor ∈ earlier.ancestors vertex

namespace Rises

variable {earlier later : Forest}

theorem refl (forest : Forest) : Rises forest forest :=
  ⟨fun known => ⟨_, known, self_mem_ancestors _ _⟩, fun _ member => member⟩

theorem trans (ordered : Ordered earlier) (first : Rises earlier forest)
    (second : Rises forest later) : Rises earlier later := by
  constructor
  case parent =>
    intro vertex parent known
    obtain ⟨between, known', above⟩ := first.parent known
    obtain ⟨parent', known'', above'⟩ := second.parent known'
    have assigned := assigned_of_mem_ancestors ordered (ordered.upheld known) above
    exact ⟨parent', known'', mem_ancestors_trans above (first.ancestors assigned above')⟩
  case ancestors =>
    intro vertex ancestor assigned member
    obtain ⟨parent, known⟩ := Option.isSome_iff_exists.mp assigned
    obtain ⟨between, known', _⟩ := first.parent known
    exact first.ancestors assigned (second.ancestors (assigned_of_parent known') member)

end Rises

namespace Going

theorem rises (going : Going predecessors point) (numbered : Numbered predecessors)
    (turn : Turn predecessors point next) : Rises point.forest next.forest := by
  cases turn with
  | read | keep | again => exact .refl _
  | @assign forest vertex found changed inside moves =>
    have here := getElem?_sourcesOf inside
    have candidate := going.candidate_eq
    constructor
    case parent =>
      intro other parent known
      by_cases same : other = vertex
      · subst same
        exact ⟨found, parent?_set_self found (going.refining.inside here),
          going.refining.candidate_mem_ancestors_parent numbered going.positive here candidate
            known⟩
      · exact ⟨parent, (parent?_set_of_ne same _).trans known, self_mem_ancestors _ _⟩
    case ancestors =>
      intro other ancestor assigned member
      exact going.refining.mem_ancestors_of_set numbered going.positive here candidate assigned
        member

/-- **What holds at a point holds at all that follow**, and dominators have moved to their ancestors
in between. -/
theorem leads (going : Going predecessors point) (numbered : Numbered predecessors)
    (run : Leads predecessors point next) :
    Going predecessors next ∧ Rises point.forest next.forest := by
  induction run with
  | refl => exact ⟨going, .refl _⟩
  | tail _ known ih =>
    obtain ⟨between, rises⟩ := ih
    have turn := Turn.of_step known
    exact ⟨(between.step numbered turn).1,
      rises.trans going.refining.ordered (between.rises numbered turn)⟩

end Going

/-! ### Progress -/

/-- **Progress at a point of the iteration.** -/
structure Progress (predecessors : List (List Nat)) (point : Point) : Prop where
  /-- A turn that goes on to the next vertex assigns the vertex anew, and no other turn changes the
  forest. -/
  turns : ∀ {next}, step predecessors point = some next →
    next.forest = if next.vertex = point.vertex + 1 then
      point.forest.relax point.vertex (sourcesOf predecessors point.vertex) else point.forest
  /-- Dominators come before what they dominate. -/
  lower : ∀ {vertex parent}, vertex ≠ 0 → point.forest.parent? vertex = some parent →
    parent < vertex ∧ vertex < predecessors.length
  /-- Where two vertices are met, the loop ends, with their nearest common ancestor. -/
  meets : ∀ {first second sources}, point.stage = .meeting first second sources →
    ∃ nearest, point.forest.Nearest first second nearest ∧
      Leads predecessors point { point with stage := .scanning sources (some nearest) }
  /-- A dominator stays, or it moves to one of its ancestors. -/
  rises : ∀ {later}, Leads predecessors point later → ∀ {vertex parent},
    point.forest.parent? vertex = some parent →
      ∃ parent', later.forest.parent? vertex = some parent' ∧
        (parent' = parent ∨ parent' < parent ∧ parent' ∈ point.forest.ancestors parent)
  /-- The sweeps end. -/
  ends : ∃ final, Leads predecessors point final ∧ step predecessors final = none ∧
    final.forest = solve predecessors

theorem Going.progress (going : Going predecessors point) (numbered : Numbered predecessors) :
    Progress predecessors point where
  turns known := going.forest_of_turn numbered (.of_step known)
  lower positive known := by
    have inside := lt_length_of_assigned (assigned_of_parent known)
    rw [going.refining.length] at inside
    exact ⟨going.refining.ordered.lower positive known, inside⟩
  meets := by
    obtain ⟨forest, vertex, changed, stage⟩ := point
    rintro first second sources rfl
    have right := going.reading.assigned second List.mem_cons_self
    have left := going.reading.assigned first
      (List.mem_cons_of_mem _ (List.mem_singleton_self first))
    have ordered := going.refining.ordered
    exact ⟨_, nearest_meet ordered left right, leads_meeting ordered left right⟩
  rises run vertex parent known := by
    obtain ⟨parent', known', above⟩ := (going.leads numbered run).2.parent known
    refine ⟨parent', known', ?_⟩
    rcases Nat.eq_or_lt_of_le (le_of_mem_ancestors above) with same | less
    · exact .inl same
    · exact .inr ⟨less, above⟩
  ends := going.ends numbered

/-- Where there are no vertices, the iteration is at its end when it begins. -/
theorem progress_nil (run : Leads [] (.initial []) point) : Progress [] point := by
  have ended : step [] (.initial []) = none := rfl
  have none : ∀ vertex, parent? (Point.initial []).forest vertex = none := fun _ => rfl
  obtain rfl := eq_of_leads ended run
  constructor
  case turns =>
    intro next known
    rw [ended] at known
    cases known
  case lower =>
    intro vertex parent _ known
    rw [none] at known
    cases known
  case meets => exact fun same => (nomatch same)
  case rises =>
    intro later _ vertex parent known
    rw [none] at known
    cases known
  case ends => exact ⟨_, .refl, ended, solve_nil.symm⟩

end Iteration

/-- **The iteration for the dominators of a graph makes progress at every point.** The vertices go
by their places in a reverse postorder. -/
theorem DominatorTree.iteration_progress {V : Type} [DecidableEq V] (graph : Digraph V)
    {point : Iteration.Point}
    (reached : Iteration.Leads (numbering graph) (.initial (numbering graph)) point) :
    Iteration.Progress (numbering graph) point := by
  by_cases empty : numbering graph = []
  · rw [empty] at reached ⊢
    exact Iteration.progress_nil reached
  · have going := ((Iteration.Going.initial empty).leads (numbered graph) reached).1
    exact going.progress (numbered graph)

/-- In the first sweep 3 still hangs below 2 and 2 below 1, when 3 is met with the entry; in the end
both hang below the entry. -/
theorem DominatorTree.iteration_progress_braid : ∃ point,
    Iteration.Leads (numbering Cfg.braid.graph) (.initial (numbering Cfg.braid.graph)) point ∧
    point.forest = [some 0, some 0, some 1, some 2, none, none] ∧ point.stage = .meeting 3 0 [] ∧
    (∃ nearest, point.forest.Nearest 3 0 nearest ∧ Iteration.Leads (numbering Cfg.braid.graph) point
      { point with stage := .scanning [] (some nearest) }) ∧
    ∃ final, Iteration.Leads (numbering Cfg.braid.graph) point final ∧
      Iteration.step (numbering Cfg.braid.graph) final = none ∧
      final.forest = [some 0, some 0, some 0, some 0, some 0, some 4] := by
  have order : Cfg.braid.graph.reversePostorder = [⟨1⟩, ⟨2⟩, ⟨4⟩, ⟨6⟩, ⟨3⟩, ⟨5⟩] :=
    Option.some.inj ((Digraph.reversePostorderWithin_eq Cfg.nodup_braid (Nat.le_refl _)).symm.trans
      (by decide +kernel))
  have numbers : numbering Cfg.braid.graph = [[], [0], [1, 4], [2, 5, 5, 3], [0, 3], [4]] := by
    rw [numbering, order]
    decide +kernel
  have solved : Forest.solve (numbering Cfg.braid.graph) =
      [some 0, some 0, some 0, some 0, some 0, some 4] := by
    rw [numbers]
    decide +kernel
  have reached := Iteration.leads_after (numbering Cfg.braid.graph) 12
    (.initial (numbering Cfg.braid.graph))
  have progress := iteration_progress Cfg.braid.graph reached
  have place : Iteration.after (numbering Cfg.braid.graph) 12
      (.initial (numbering Cfg.braid.graph)) =
        ⟨[some 0, some 0, some 1, some 2, none, none], 4, true, .meeting 3 0 []⟩ := by
    rw [numbers]
    decide
  rw [place] at reached progress
  obtain ⟨final, leads, ended, same⟩ := progress.ends
  exact ⟨_, reached, rfl, rfl, progress.meets rfl, final, leads, ended, same.trans solved⟩

end SsaAmd64
