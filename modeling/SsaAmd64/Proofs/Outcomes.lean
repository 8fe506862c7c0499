/-
**Computations that succeed.**

What follows from the success of a computation that may fail: all its steps have succeeded. What
follows from its failure: one of them has failed.

* `ok_of_bind`, `bind_of_ok`: a step and what comes after it;
* `ok_of_map`, `ok_of_mapError`: a step whose result, or whose failure, is changed;
* `ok_of_forM`, `forall₂_of_mapM`, `ok_of_mem_mapM`: a step for each element of a list;
* `error_of_bind`, `error_of_forM`: the step that fails, where a computation does;
* `forM_congr`: steps that succeed and fail alike;
* `map_eq_of_forall₂`: what elements and their results have in common;
* `Ensures`: a computation whose result, if there is one, has a property.
-/

import Mathlib.Data.List.Forall2

namespace SsaAmd64

variable {ε α β : Type}

theorem ok_of_bind {first : Except ε α} {rest : α → Except ε β} {result : β}
    (success : (first >>= rest) = .ok result) :
    ∃ value, first = .ok value ∧ rest value = .ok result := by
  cases first with
  | error fault => cases success
  | ok value => exact ⟨value, rfl, success⟩

/-- A computation goes on behind a step that has succeeded. -/
theorem bind_of_ok {first : Except ε α} {value : α} (success : first = .ok value)
    (rest : α → Except ε β) : (first >>= rest) = rest value := by
  rw [success]
  rfl

/-- A computation fails in its first step or behind it. -/
theorem error_of_bind {first : Except ε α} {rest : α → Except ε β} {fault : ε}
    (failure : (first >>= rest) = .error fault) :
    first = .error fault ∨ ∃ value, first = .ok value ∧ rest value = .error fault := by
  cases first with
  | error earlier => exact .inl (congrArg Except.error (Except.error.inj failure))
  | ok value => exact .inr ⟨value, rfl, failure⟩

theorem ok_of_map {first : Except ε α} {change : α → β} {result : β}
    (success : first.map change = .ok result) : ∃ value, first = .ok value ∧ change value = result := by
  cases first with
  | error fault => cases success
  | ok value => exact ⟨value, rfl, Except.ok.inj success⟩

theorem ok_of_mapError {first : Except ε α} {change : ε → β} {result : α}
    (success : first.mapError change = .ok result) : first = .ok result := by
  cases first with
  | error fault => cases success
  | ok value => exact congrArg Except.ok (Except.ok.inj success)

theorem ok_of_forM {check : α → Except ε Unit} {elements : List α}
    (success : elements.forM check = .ok ()) : ∀ element ∈ elements, check element = .ok () := by
  induction elements with
  | nil => exact fun _ member => (nomatch member)
  | cons first others ih =>
    obtain ⟨_, here, later⟩ := ok_of_bind success
    exact List.forall_mem_cons.mpr ⟨here, ih later⟩

theorem error_of_forM {check : α → Except ε Unit} {elements : List α} {fault : ε}
    (failure : elements.forM check = .error fault) : ∃ element, check element = .error fault := by
  induction elements with
  | nil => cases failure
  | cons first others ih =>
    rcases error_of_bind failure with here | ⟨_, _, later⟩
    · exact ⟨first, here⟩
    · exact ih later

theorem forM_congr {check other : α → Except ε Unit} {elements : List α}
    (same : ∀ element ∈ elements, check element = other element) :
    elements.forM check = elements.forM other := by
  induction elements with
  | nil => rfl
  | cons first others ih =>
    obtain ⟨here, later⟩ := List.forall_mem_cons.mp same
    unfold List.forM
    rw [here]
    exact congrArg (Except.bind _) (funext fun _ => ih later)

theorem forall₂_of_mapM {change : α → Except ε β} {elements : List α} {results : List β}
    (success : elements.mapM change = .ok results) :
    List.Forall₂ (fun element result => change element = .ok result) elements results := by
  induction elements generalizing results with
  | nil =>
    obtain rfl := Except.ok.inj success
    exact .nil
  | cons first others ih =>
    rw [List.mapM_cons] at success
    obtain ⟨result, here, rest⟩ := ok_of_bind success
    obtain ⟨others', later, finish⟩ := ok_of_bind rest
    obtain rfl := Except.ok.inj finish
    exact .cons here (ih later)

theorem ok_of_mem_mapM {change : α → Except ε β} {elements : List α} {results : List β}
    (success : elements.mapM change = .ok results) :
    ∀ element ∈ elements, ∃ result ∈ results, change element = .ok result := by
  have pairs := forall₂_of_mapM success
  clear success
  induction pairs with
  | nil => exact List.forall_mem_nil _
  | cons here _ ih =>
    refine List.forall_mem_cons.mpr ⟨⟨_, List.mem_cons_self, here⟩, fun element member => ?_⟩
    obtain ⟨result, listed, done⟩ := ih element member
    exact ⟨result, List.mem_cons_of_mem _ listed, done⟩

theorem map_eq_of_forall₂ {γ : Type} {related : α → β → Prop} {first : α → γ} {second : β → γ}
    {elements : List α} {results : List β} (pairs : List.Forall₂ related elements results)
    (same : ∀ element result, related element result → first element = second result) :
    elements.map first = results.map second := by
  rw [← List.forall₂_eq_eq_eq, List.forall₂_map_left_iff, List.forall₂_map_right_iff]
  exact pairs.imp same

/-- **The result of a computation has a property**, if there is one. -/
def Ensures (holds : α → Prop) (computation : Except ε α) : Prop :=
  ∀ value, computation = .ok value → holds value

namespace Ensures

variable {holds : α → Prop} {result : β → Prop}

theorem of_ok {value : α} (sound : holds value) : Ensures holds (.ok value : Except ε α) := by
  rintro _ ⟨⟩
  exact sound

theorem of_error {fault : ε} : Ensures holds (.error fault) :=
  nofun

theorem trivial (computation : Except ε α) : Ensures (fun _ => True) computation :=
  fun _ _ => ⟨⟩

/-- A step, and what comes after its success. -/
theorem bind {first : Except ε α} {rest : α → Except ε β} (one : Ensures holds first)
    (other : ∀ value, first = .ok value → holds value → Ensures result (rest value)) :
    Ensures result (first >>= rest) := by
  intro final done
  obtain ⟨value, here, later⟩ := ok_of_bind done
  exact other value here (one value here) final later

/-- A step for each element of a list. -/
theorem mapM {change : β → Except ε α} {elements : List β}
    (each : ∀ element ∈ elements, Ensures holds (change element)) :
    Ensures (fun values => ∀ value ∈ values, holds value) (elements.mapM change) := by
  intro values done
  have pairs := forall₂_of_mapM done
  clear done
  induction pairs with
  | nil => exact List.forall_mem_nil _
  | cons here _ ih =>
    obtain ⟨first, others⟩ := List.forall_mem_cons.mp each
    exact List.forall_mem_cons.mpr ⟨first _ here, ih others⟩

end Ensures

end SsaAmd64
