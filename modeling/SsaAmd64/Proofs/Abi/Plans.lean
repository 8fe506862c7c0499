/-
**Plans for integers.**

An integer is passed by itself, in a register or in a place of its own on the stack, and an integer
result comes back in a register.

* `ArgumentPlan.Direct`: an argument that is passed by itself;
* `Convention.direct_of_plan`: integers are;
* `Passes`: a machine has arguments where their plans put them.
-/

import SsaAmd64.Proofs.Abi.Allotment
import SsaAmd64.Proofs.Lowering.Homes

namespace SsaAmd64

open Asm

/-- **An argument that is passed by itself**, in a register or on the stack up to an offset. -/
inductive ArgumentPlan.Direct (limit : Nat) : ArgumentPlan → Prop
  | general {passing : Passing} {register : Register} :
    Direct limit ⟨passing, .general register, none⟩
  | stack {passing : Passing} {offset : Nat} :
    offset ≤ limit → Direct limit ⟨passing, .stack offset, none⟩

namespace Convention

variable {type result : Ty} {types : List Ty} {plans : List ArgumentPlan} {limit : Nat}

theorem classifySystemV_of_integral (integral : type.IsIntegral) :
    classifySystemV type = .ok .integer := by
  obtain ⟨width, wide, rfl⟩ := integral
  rcases mem_registerWidths.mp wide with rfl | rfl | rfl | rfl | rfl <;> rfl

theorem classifyWin64_of_integral (integral : type.IsIntegral) :
    classifyWin64 type = .ok .integer := by
  obtain ⟨width, wide, rfl⟩ := integral
  rcases mem_registerWidths.mp wide with rfl | rfl | rfl | rfl | rfl <;> rfl

theorem Allots.forall_direct {supply last : Supply} (allots : Allots supply types plans last)
    (integral : ∀ type ∈ types, type.IsIntegral)
    (room : supply.stack + 8 * types.length ≤ limit) :
    ∀ plan ∈ plans, plan.Direct limit := by
  induction allots with
  | nil => exact List.forall_mem_nil _
  | cons known takes _ ih =>
    obtain ⟨here, integral⟩ := List.forall_mem_cons.mp integral
    rw [List.length_cons] at room
    cases (classifySystemV_of_integral here).symm.trans known
    cases takes with
    | general =>
      dsimp only at room
      refine List.forall_mem_cons.mpr ⟨.general, ih integral ?_⟩
      dsimp only
      omega
    | stack =>
      refine List.forall_mem_cons.mpr ⟨.stack (by omega), ih integral ?_⟩
      dsimp only
      omega

theorem direct_placeWin64 {position : Nat} (room : 8 * position ≤ limit) :
    ArgumentPlan.Direct limit ⟨.integer, placeWin64 .integer position, none⟩ := by
  unfold placeWin64
  cases win64.generalRegisters[position]? with
  | none => exact .stack room
  | some register => exact .general

theorem AllotsFrom.forall_direct {position copies last : Nat}
    (allots : AllotsFrom position copies types plans last)
    (integral : ∀ type ∈ types, type.IsIntegral)
    (room : 8 * (position + types.length) ≤ limit) :
    ∀ plan ∈ plans, plan.Direct limit := by
  induction allots with
  | nil => exact List.forall_mem_nil _
  | copied known =>
    obtain ⟨here, _⟩ := List.forall_mem_cons.mp integral
    cases (classifyWin64_of_integral here).symm.trans known
  | direct known _ _ ih =>
    obtain ⟨here, integral⟩ := List.forall_mem_cons.mp integral
    rw [List.length_cons] at room
    cases (classifyWin64_of_integral here).symm.trans known
    exact List.forall_mem_cons.mpr ⟨direct_placeWin64 (by omega), ih integral (by omega)⟩

/-- **Integers are passed by themselves**, and come back in a register. -/
theorem direct_of_plan {convention : Convention} {plan : CallPlan}
    (integral : ∀ type ∈ types, type.IsIntegral) (returned : result.IsIntegral)
    (planned : convention.plan types result = .ok plan) :
    plan.result = some .integer ∧
      ∀ argument ∈ plan.arguments, argument.Direct (8 * types.length) := by
  have back : convention.planResult result = .ok (some .integer) := by
    obtain ⟨width, wide, rfl⟩ := returned
    have kind : convention.classify (.int width) = .ok .integer := by
      cases convention with
      | systemV => exact classifySystemV_of_integral ⟨width, wide, rfl⟩
      | win64 => exact classifyWin64_of_integral ⟨width, wide, rfl⟩
    rw [planResult, kind]
    rfl
  obtain ⟨known, planned⟩ := plan_eq_ok_iff.mp planned
  have same : plan.result = some .integer := Except.ok.inj (known.symm.trans back)
  refine ⟨same, ?_⟩
  cases planned with
  | systemV allots =>
    obtain rfl := same
    exact allots.forall_direct integral (by simp)
  | win64 allots =>
    obtain rfl := same
    exact allots.forall_direct integral (by simp)

end Convention

/-! ### Arguments in their places -/

/-- What a callee finds in the place of an argument of a number of bytes, where the argument area
starts at an address. -/
def ArgumentPlan.found (plan : ArgumentPlan) (area : BitVec 64) (machine : Machine) (count : Nat) :
    Nat :=
  match plan.place with
  | .general register | .vector register _ =>
    (machine.registers register).toNat % patternCount (8 * count)
  | .stack start => machine.load (offset area start) count

/-- **A machine has integers as arguments where their plans put them**, one for each type. At the
entry of a function the return address lies between the stack pointer and the argument area. -/
inductive Passes (machine : Machine) : List Ty → List ArgumentPlan → List Nat → Prop
  | nil : Passes machine [] [] []
  | cons {width number : Nat} {plan : ArgumentPlan} {types : List Ty} {plans : List ArgumentPlan}
    {arguments : List Nat} : number < patternCount width →
    plan.found (offset (machine.registers .rsp) 8) machine (Width.holding width).bytes = number →
    Passes machine types plans arguments →
    Passes machine (.int width :: types) (plan :: plans) (number :: arguments)

namespace Passes

variable {machine : Machine} {types : List Ty} {plans : List ArgumentPlan} {arguments : List Nat}

theorem length_arguments (passes : Passes machine types plans arguments) :
    arguments.length = types.length := by
  induction passes with
  | nil => rfl
  | cons _ _ _ ih => exact congrArg Nat.succ ih

/-- The argument at a position. -/
theorem get (passes : Passes machine types plans arguments) {index : Nat} {type : Ty}
    (known : types[index]? = some type) : ∃ width number plan, type = .int width ∧
      plans[index]? = some plan ∧ arguments[index]? = some number ∧ number < patternCount width ∧
      plan.found (offset (machine.registers .rsp) 8) machine (Width.holding width).bytes =
        number := by
  induction passes generalizing index with
  | nil => cases known
  | @cons width number plan _ _ _ fits placed _ ih =>
    cases index with
    | zero => exact ⟨width, number, plan, (Option.some.inj known).symm, rfl, rfl, fits, placed⟩
    | succ index => exact ih known

end Passes

end SsaAmd64
