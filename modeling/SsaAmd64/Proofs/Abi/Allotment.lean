/-
**Allotments.**

What a call plan gives to each argument, one after the other. System V gives the next register of a
kind, or bytes of the stack where none is left or the argument lies in memory. Win64 gives the place of
a position, and a copy to what lies in memory.

* `Convention.Takes`: what System V gives to one argument;
* `Convention.Allots`, `Convention.AllotsFrom`: what either convention gives to all of them;
* `Convention.Planned`, `Convention.plan_eq_ok_iff`: the plans that there are.
-/

import SsaAmd64.Abi.CallPlan
import SsaAmd64.Proofs.Outcomes

namespace SsaAmd64

namespace Convention

open Asm

/-! ### System V -/

/-- **What System V gives to an argument**, and what is left after it. -/
inductive Takes (type : Ty) : Supply → Passing → Place → Supply → Prop
  | general {register : Register} {general vector : List Register} {stack : Nat} :
    Takes type ⟨register :: general, vector, stack⟩ .integer (.general register)
      ⟨general, vector, stack⟩
  | vector {register : Register} {general vector : List Register} {stack : Nat} :
    Takes type ⟨general, register :: vector, stack⟩ .vector (.vector register none)
      ⟨general, vector, stack⟩
  | stack {supply : Supply} {passing : Passing} : passing ≠ .memory →
    (passing = .integer → supply.general = []) → (passing = .vector → supply.vector = []) →
    Takes type supply passing (.stack supply.stack) { supply with stack := supply.stack + 8 }
  | memory {supply : Supply} {align size : Nat} : type.align = .ok align → type.size = .ok size →
    Takes type supply .memory (.stack (roundUp supply.stack (max align 8)))
      { supply with stack := roundUp supply.stack (max align 8) + roundUp size 8 }

/-- **What System V gives to arguments**, one after the other. -/
inductive Allots : Supply → List Ty → List ArgumentPlan → Supply → Prop
  | nil (supply : Supply) : Allots supply [] [] supply
  | cons {type : Ty} {types : List Ty} {passing : Passing} {place : Place}
    {plans : List ArgumentPlan} {supply next last : Supply} :
    classifySystemV type = .ok passing → Takes type supply passing place next →
    Allots next types plans last →
    Allots supply (type :: types) (⟨passing, place, none⟩ :: plans) last

variable {type result : Ty} {types : List Ty} {passing : Passing} {place : Place}
variable {plans : List ArgumentPlan} {supply next last : Supply} {convention : Convention}
variable {plan : CallPlan} {align size position copies finish vectors total : Nat}

theorem alignToPass_eq_ok_iff : alignToPass type = .ok align ↔ type.align = .ok align :=
  ⟨ok_of_mapError, fun aligned => by rw [alignToPass, aligned]; rfl⟩

theorem sizeToPass_eq_ok_iff : sizeToPass type = .ok size ↔ type.size = .ok size :=
  ⟨ok_of_mapError, fun sized => by rw [sizeToPass, sized]; rfl⟩

theorem take_eq_ok_iff :
    supply.take type passing = .ok (place, next) ↔ Takes type supply passing place next := by
  constructor
  · intro taken
    obtain ⟨general, vector, stack⟩ := supply
    cases passing with
    | integer =>
      cases general <;> cases taken
      · exact .stack nofun (fun _ => rfl) nofun
      · exact .general
    | vector =>
      cases vector <;> cases taken
      · exact .stack nofun nofun fun _ => rfl
      · exact .vector
    | memory =>
      obtain ⟨align, aligned, taken⟩ := ok_of_bind taken
      obtain ⟨size, sized, taken⟩ := ok_of_bind taken
      cases taken
      exact .memory (alignToPass_eq_ok_iff.mp aligned) (sizeToPass_eq_ok_iff.mp sized)
  · intro takes
    cases takes with
    | general => rfl
    | vector => rfl
    | stack direct general vector =>
      obtain ⟨registers, vectors, stack⟩ := supply
      cases passing with
      | integer =>
        obtain rfl : registers = [] := general rfl
        rfl
      | vector =>
        obtain rfl : vectors = [] := vector rfl
        rfl
      | memory => exact absurd rfl direct
    | memory aligned sized =>
      rw [Supply.take, bind_of_ok (alignToPass_eq_ok_iff.mpr aligned),
        bind_of_ok (sizeToPass_eq_ok_iff.mpr sized)]
      rfl

theorem planSystemV_eq_ok_iff :
    planSystemV supply types = .ok (plans, last) ↔ Allots supply types plans last := by
  constructor
  · intro planned
    induction types generalizing supply plans with
    | nil =>
      cases planned
      exact .nil _
    | cons type types ih =>
      obtain ⟨passing, known, planned⟩ := ok_of_bind planned
      obtain ⟨⟨place, next⟩, taken, planned⟩ := ok_of_bind planned
      obtain ⟨⟨others, _⟩, later, planned⟩ := ok_of_bind planned
      cases planned
      exact .cons known (take_eq_ok_iff.mp taken) (ih later)
  · intro allots
    induction allots with
    | nil => rfl
    | cons known takes _ ih =>
      rw [planSystemV, bind_of_ok known, bind_of_ok (take_eq_ok_iff.mpr takes)]
      dsimp only
      rw [bind_of_ok ih]
      rfl

/-! ### Win64 -/

/-- **What Win64 gives to arguments** from a position on, with copies from an offset on. -/
inductive AllotsFrom : Nat → Nat → List Ty → List ArgumentPlan → Nat → Prop
  | nil (position copies : Nat) : AllotsFrom position copies [] [] copies
  | copied {type : Ty} {types : List Ty} {plans : List ArgumentPlan}
    {position copies align size last : Nat} :
    classifyWin64 type = .ok .memory → type.align = .ok align → type.size = .ok size →
    AllotsFrom (position + 1) (roundUp copies (max align 16) + size) types plans last →
    AllotsFrom position copies (type :: types)
      (⟨.memory, placeWin64 .memory position, some (roundUp copies (max align 16))⟩ :: plans) last
  | direct {type : Ty} {types : List Ty} {passing : Passing} {plans : List ArgumentPlan}
    {position copies last : Nat} :
    classifyWin64 type = .ok passing → passing ≠ .memory →
    AllotsFrom (position + 1) copies types plans last →
    AllotsFrom position copies (type :: types)
      (⟨passing, placeWin64 passing position, none⟩ :: plans) last

/-- The counter goes up by one for an argument that is placed in a vector register. -/
theorem countWin64_eq (passing : Passing) (position vectors : Nat) (copy : Option Nat) :
    countWin64 passing position vectors = vectors +
      [ArgumentPlan.mk passing (placeWin64 passing position) copy].countP ArgumentPlan.inVector := by
  unfold countWin64 placeWin64
  cases win64.generalRegisters[position]? <;> cases passing <;> rfl

/-- The counter of the one argument, then of those after it, is that of all of them. -/
theorem countWin64_add (passing : Passing) (position vectors : Nat) (copy : Option Nat)
    (plans : List ArgumentPlan) :
    countWin64 passing position vectors + plans.countP ArgumentPlan.inVector = vectors +
      (⟨passing, placeWin64 passing position, copy⟩ :: plans).countP ArgumentPlan.inVector := by
  rw [countWin64_eq passing position vectors copy, Nat.add_assoc, ← List.countP_append]
  rfl

/-- Win64 gives its arguments what there is to give, and counts those in vector registers. -/
theorem planWin64_eq_ok_iff : planWin64 position copies vectors types = .ok (plans, finish, total) ↔
    AllotsFrom position copies types plans finish ∧
      total = vectors + plans.countP ArgumentPlan.inVector := by
  constructor
  · intro planned
    induction types generalizing position copies vectors plans with
    | nil =>
      cases planned
      exact ⟨.nil _ _, rfl⟩
    | cons type types ih =>
      obtain ⟨passing, known, planned⟩ := ok_of_bind planned
      split at planned
      case isTrue memory =>
        subst memory
        obtain ⟨align, aligned, planned⟩ := ok_of_bind planned
        obtain ⟨size, sized, planned⟩ := ok_of_bind planned
        obtain ⟨⟨others, _⟩, later, planned⟩ := ok_of_bind planned
        cases planned
        have ⟨allots, counted⟩ := ih later
        exact ⟨.copied known (alignToPass_eq_ok_iff.mp aligned) (sizeToPass_eq_ok_iff.mp sized)
          allots, counted.trans (countWin64_add ..)⟩
      case isFalse direct =>
        obtain ⟨⟨others, _⟩, later, planned⟩ := ok_of_bind planned
        cases planned
        have ⟨allots, counted⟩ := ih later
        exact ⟨.direct known direct allots, counted.trans (countWin64_add ..)⟩
  · rintro ⟨allots, rfl⟩
    induction allots generalizing vectors with
    | nil => rfl
    | copied known aligned sized _ ih =>
      rw [planWin64, bind_of_ok known, if_pos rfl, bind_of_ok (alignToPass_eq_ok_iff.mpr aligned),
        bind_of_ok (sizeToPass_eq_ok_iff.mpr sized), bind_of_ok ih, countWin64_add]
      rfl
    | direct known direct _ ih =>
      rw [planWin64, bind_of_ok known, if_neg direct, bind_of_ok ih, countWin64_add]
      rfl

/-! ### Plans -/

/-- **The plans of a convention.** The address of a result in memory comes before all arguments. -/
inductive Planned (types : List Ty) : Convention → CallPlan → Prop
  | systemV {returned : Option Passing} {plans : List ArgumentPlan} {last : Supply} :
    Allots ⟨systemV.generalRegisters.drop (if returned = some .memory then 1 else 0),
      systemV.vectorRegisters, 0⟩ types plans last →
    Planned types systemV
      ⟨plans, returned, roundUp last.stack 16, systemV.vectorCount - last.vector.length⟩
  | win64 {returned : Option Passing} {plans : List ArgumentPlan} {last : Nat} :
    AllotsFrom (if returned = some .memory then 1 else 0)
      (roundUp (max shadowSpace
        (8 * ((if returned = some .memory then 1 else 0) + types.length))) 16) types plans last →
    Planned types win64 ⟨plans, returned, roundUp last 16, plans.countP ArgumentPlan.inVector⟩

/-- **A plan is found where the result can come back and the arguments can be given their places.** -/
theorem plan_eq_ok_iff : convention.plan types result = .ok plan ↔
    convention.planResult result = .ok plan.result ∧ Planned types convention plan := by
  constructor
  · intro planned
    obtain ⟨returned, known, planned⟩ := ok_of_bind planned
    cases convention with
    | systemV =>
      obtain ⟨⟨plans, last⟩, listed, done⟩ := ok_of_bind planned
      cases done
      exact ⟨known, .systemV (planSystemV_eq_ok_iff.mp listed)⟩
    | win64 =>
      obtain ⟨⟨plans, last, vectors⟩, listed, done⟩ := ok_of_bind planned
      cases done
      obtain ⟨allots, rfl⟩ := planWin64_eq_ok_iff.mp listed
      rw [Nat.zero_add]
      exact ⟨known, .win64 allots⟩
  · rintro ⟨known, planned⟩
    rw [Convention.plan, bind_of_ok known]
    cases planned with
    | systemV allots => exact bind_of_ok (planSystemV_eq_ok_iff.mpr allots) _
    | win64 allots =>
      exact bind_of_ok (planWin64_eq_ok_iff.mpr ⟨allots, (Nat.zero_add _).symm⟩) _

end Convention

end SsaAmd64
