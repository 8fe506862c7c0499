/-
**What a plan passes.**

A plan is found only if every argument, and the result if there is one, can cross the call. No block
can.

* `Convention.classify_of_plan`, `Convention.result_of_plan`: how arguments and the result cross;
* `Convention.isPassed_of_classify`: what crosses has a value that is no block.
-/

import SsaAmd64.Proofs.Abi.Allotment

namespace SsaAmd64

namespace Convention

variable {convention : Convention} {types : List Ty} {type result : Ty} {plan : CallPlan}
variable {passing : Passing} {plans : List ArgumentPlan}

theorem isPassed_of_classify (known : convention.classify type = .ok passing) :
    type ≠ .void ∧ type ≠ .label := by
  constructor
  all_goals
    rintro rfl
    cases convention <;> cases known

theorem Allots.classify {supply last : Supply} (allots : Allots supply types plans last) :
    ∀ type ∈ types, ∃ passing, classifySystemV type = .ok passing := by
  induction allots with
  | nil => exact List.forall_mem_nil _
  | cons known _ _ ih => exact List.forall_mem_cons.mpr ⟨⟨_, known⟩, ih⟩

theorem AllotsFrom.classify {position copies last : Nat}
    (allots : AllotsFrom position copies types plans last) :
    ∀ type ∈ types, ∃ passing, classifyWin64 type = .ok passing := by
  induction allots with
  | nil => exact List.forall_mem_nil _
  | copied known _ _ _ ih => exact List.forall_mem_cons.mpr ⟨⟨_, known⟩, ih⟩
  | direct known _ _ ih => exact List.forall_mem_cons.mpr ⟨⟨_, known⟩, ih⟩

/-- **Every argument of a plan can be passed.** -/
theorem classify_of_plan (planned : convention.plan types result = .ok plan) :
    ∀ type ∈ types, ∃ passing, convention.classify type = .ok passing := by
  cases (plan_eq_ok_iff.mp planned).2 with
  | systemV allots => exact allots.classify
  | win64 allots => exact allots.classify

/-- **The result of a plan comes back as it is classified**, and there is none of type `void`. -/
theorem result_of_plan (planned : convention.plan types result = .ok plan) :
    convention.planResult result = .ok plan.result :=
  (plan_eq_ok_iff.mp planned).1

/-- A result that comes back is no block. -/
theorem isPassed_of_result (planned : convention.plan types result = .ok plan)
    (returns : plan.result.isSome) : result ≠ .void ∧ result ≠ .label := by
  have known := result_of_plan planned
  rw [planResult] at known
  split at known
  · rw [← Except.ok.inj known] at returns
    cases returns
  · obtain ⟨passing, classified, _⟩ := ok_of_map known
    exact isPassed_of_classify classified

end Convention

end SsaAmd64
