/-
**Places of arguments.**

Each argument has a place of its own: the bytes of stack arguments and of the caller's copies lie
apart in the argument area, and no register is handed out twice. A callee that plans for the first
arguments of a call finds them where the caller has put them.

* `Convention.Measures`: how many bytes of the area each argument takes up;
* `Convention.Allots.takenAll`, `Convention.AllotsFrom.positionedAll`: what is handed out;
* `Convention.distinct_of_plan`: a plan hands out nothing twice, and nothing outside its area;
* `Convention.plan_of_append`: a plan for more arguments is one for the first of them;
* `Convention.agree_of_plan`: plans for the first types and for all types agree.
-/

import Mathlib.Data.List.Flatten
import SsaAmd64.Proofs.Abi.Passed
import SsaAmd64.Proofs.Lowering.Slots

namespace SsaAmd64

open Asm

/-- The bytes of a type. One without layout has none. -/
def Ty.bytes (type : Ty) : Nat :=
  type.size.toOption.getD 0

theorem Ty.bytes_eq {type : Ty} {size : Nat} (sized : type.size = .ok size) : type.bytes = size := by
  rw [bytes, sized]
  rfl

/-- The registers of a place. -/
def Place.registers : Place → List Register
  | .general register => [register]
  | .vector register companion => register :: companion.toList
  | .stack _ => []

namespace ArgumentPlan

/-- The bytes of the argument area that an argument of a size takes up: offsets and lengths. -/
def ranges (plan : ArgumentPlan) (size : Nat) : List (Nat × Nat) :=
  match plan.copy, plan.place with
  | some copy, .stack start => [(copy, size), (start, 8)]
  | some copy, _ => [(copy, size)]
  | none, .stack start => [(start, size)]
  | none, _ => []

/-- The registers that an argument takes up. -/
def registers (plan : ArgumentPlan) : List Register :=
  plan.place.registers

/-- **Two plans that put an argument in the same place**, with or without a copy. -/
structure Agrees (first second : ArgumentPlan) : Prop where
  place : first.place = second.place
  copied : first.copy.isSome = second.copy.isSome

/-- **Two plans that also pass it alike.** -/
structure Alike (first second : ArgumentPlan) : Prop extends first.Agrees second where
  passing : first.passing = second.passing

theorem Alike.refl (plan : ArgumentPlan) : plan.Alike plan :=
  ⟨⟨rfl, rfl⟩, rfl⟩

end ArgumentPlan

/-- The bytes of the argument area that arguments of some types take up. -/
def occupied (types : List Ty) (plans : List ArgumentPlan) : List (Nat × Nat) :=
  (types.zip plans).flatMap fun entry => entry.2.ranges entry.1.bytes

/-- The same, where an argument takes up as many bytes as a measure says. -/
def occupiedBy (bytes : Ty → Passing → Nat) (types : List Ty) (plans : List ArgumentPlan) :
    List (Nat × Nat) :=
  (types.zip plans).flatMap fun entry => entry.2.ranges (bytes entry.1 entry.2.passing)

theorem occupiedBy_cons (bytes : Ty → Passing → Nat) (type : Ty) (types : List Ty)
    (plan : ArgumentPlan) (plans : List ArgumentPlan) :
    occupiedBy bytes (type :: types) (plan :: plans) =
      plan.ranges (bytes type plan.passing) ++ occupiedBy bytes types plans :=
  rfl

namespace Convention

variable {type result : Ty} {types more : List Ty} {plans others : List ArgumentPlan}
variable {passing : Passing} {place : Place} {supply next last : Supply}
variable {convention : Convention} {plan whole : CallPlan} {bytes : Ty → Passing → Nat}

/-! ### Sizes -/

theorem le_of_fillsRegister {size : Nat} (fills : fillsRegister size = true) : size ≤ 8 := by
  obtain ⟨width, found⟩ := Option.isSome_iff_exists.mp fills
  rw [← (Width.ofBytes?_eq_some_iff size width).mp found]
  cases width <;> decide

theorem FloatFormat_bytes (format : FloatFormat) : (Ty.float format).bytes ≤ 8 := by
  cases format <;> decide

/-- What System V does not pass in memory has at most eight bytes. -/
theorem bytes_le_of_classifySystemV (known : classifySystemV type = .ok passing)
    (direct : passing ≠ .memory) : type.bytes ≤ 8 := by
  cases type with
  | float format => exact FloatFormat_bytes format
  | pointer element => exact Nat.le_refl 8
  | int width =>
    rw [classifySystemV] at known
    split at known
    case isFalse => cases known
    obtain ⟨size, sized, known⟩ := ok_of_bind known
    split at known
    case isFalse => cases known
    case isTrue fills =>
      rw [Ty.bytes_eq (ok_of_mapError sized)]
      exact le_of_fillsRegister fills
  | array | struct =>
    obtain ⟨size, _, known⟩ := ok_of_bind known
    split at known
    · exact absurd (Except.ok.inj known).symm direct
    · cases known
  | function | label | void => cases known

/-- What Win64 does not pass by reference has at most eight bytes. -/
theorem bytes_le_of_classifyWin64 (known : classifyWin64 type = .ok passing)
    (direct : passing ≠ .memory) : type.bytes ≤ 8 := by
  cases type with
  | float format => exact FloatFormat_bytes format
  | int | pointer | array | struct =>
    obtain ⟨size, sized, known⟩ := ok_of_bind known
    split at known
    case isTrue fills =>
      rw [Ty.bytes_eq (ok_of_mapError sized)]
      exact le_of_fillsRegister fills
    case isFalse => exact absurd (Except.ok.inj known).symm direct
  | function | label | void => cases known

/-- **A measure of arguments**: all bytes of what lies in memory, and at most eight of anything
else. -/
structure Measures (convention : Convention) (bytes : Ty → Passing → Nat) : Prop where
  memory : ∀ type, bytes type .memory = type.bytes
  direct : ∀ type passing, convention.classify type = .ok passing → passing ≠ .memory →
    bytes type passing ≤ 8

theorem measures_bytes : convention.Measures fun type _ => type.bytes where
  memory _ := rfl
  direct type passing known direct := by
    cases convention with
    | systemV => exact bytes_le_of_classifySystemV known direct
    | win64 => exact bytes_le_of_classifyWin64 known direct

/-! ### System V -/

/-- What System V hands out to an argument. -/
structure Taken (supply : Supply) (size : Nat) (plan : ArgumentPlan) (next : Supply) : Prop where
  grows : supply.stack ≤ next.stack
  inside : ∀ range ∈ plan.ranges size, supply.stack ≤ range.1 ∧ range.1 + range.2 ≤ next.stack
  apart : (plan.ranges size).Pairwise Separate
  taken : plan.registers ⊆ supply.general ++ supply.vector
  left : (next.general ++ next.vector).Sublist (supply.general ++ supply.vector)
  fresh : (supply.general ++ supply.vector).Nodup →
    plan.registers.Disjoint (next.general ++ next.vector)

/-- What fits the next eight bytes of the stack is put there. -/
theorem taken_stack (supply : Supply) (passing : Passing) {size : Nat} (short : size ≤ 8) :
    Taken supply size ⟨passing, .stack supply.stack, none⟩
      { supply with stack := supply.stack + 8 } where
  grows := Nat.le_add_right _ _
  inside range member := by
    obtain rfl := List.mem_singleton.mp member
    dsimp only
    omega
  apart := List.pairwise_singleton _ _
  taken := List.nil_subset _
  left := List.Sublist.refl _
  fresh _ := List.disjoint_nil_left _

theorem Takes.taken (measures : systemV.Measures bytes)
    (known : classifySystemV type = .ok passing) (takes : Takes type supply passing place next) :
    Taken supply (bytes type passing) ⟨passing, place, none⟩ next := by
  cases takes with
  | @general register rest vector stack =>
    refine ⟨Nat.le_refl _, nofun, .nil, ?_, ?_, fun distinct => ?_⟩
    · exact List.cons_subset.mpr ⟨List.mem_cons_self, List.nil_subset _⟩
    · exact (List.sublist_cons_self register rest).append_right vector
    · exact List.singleton_disjoint.mpr (List.nodup_cons.mp distinct).1
  | @vector register general rest stack =>
    refine ⟨Nat.le_refl _, nofun, .nil, ?_, ?_, fun distinct => ?_⟩
    · exact List.cons_subset.mpr
        ⟨List.mem_append_right _ List.mem_cons_self, List.nil_subset _⟩
    · exact (List.sublist_cons_self register rest).append_left general
    · exact List.singleton_disjoint.mpr (List.nodup_cons.mp
        (List.perm_middle.nodup_iff.mp distinct)).1
  | stack direct => exact taken_stack supply _ (measures.direct type _ known direct)
  | @memory _ align size _ sized =>
    have above := le_roundUp supply.stack (max align 8)
    have enough := le_roundUp size 8
    rw [measures.memory, Ty.bytes_eq sized]
    refine ⟨?_, fun range member => ?_, List.pairwise_singleton _ _, List.nil_subset _,
      List.Sublist.refl _, fun _ => List.disjoint_nil_left _⟩
    · dsimp only
      omega
    · obtain rfl := List.mem_singleton.mp member
      dsimp only
      omega

/-- What System V hands out to arguments, one after the other. -/
structure TakenAll (bytes : Ty → Passing → Nat) (supply : Supply) (types : List Ty)
    (plans : List ArgumentPlan) (last : Supply) : Prop where
  length : plans.length = types.length
  plain : ∀ plan ∈ plans, plan.copy = none
  grows : supply.stack ≤ last.stack
  inside : ∀ range ∈ occupiedBy bytes types plans,
    supply.stack ≤ range.1 ∧ range.1 + range.2 ≤ last.stack
  apart : (occupiedBy bytes types plans).Pairwise Separate
  taken : ∀ plan ∈ plans, plan.registers ⊆ supply.general ++ supply.vector
  fresh : (supply.general ++ supply.vector).Nodup →
    plans.Pairwise fun first second => first.registers.Disjoint second.registers

theorem Allots.takenAll (measures : systemV.Measures bytes)
    (allots : Allots supply types plans last) : TakenAll bytes supply types plans last := by
  induction allots with
  | nil =>
    exact ⟨rfl, List.forall_mem_nil _, Nat.le_refl _, List.forall_mem_nil _, .nil,
      List.forall_mem_nil _, fun _ => .nil⟩
  | cons known takes _ rest =>
    have one := takes.taken measures known
    have grows := one.grows
    have grows' := rest.grows
    refine ⟨congrArg (· + 1) rest.length, List.forall_mem_cons.mpr ⟨rfl, rest.plain⟩,
      Nat.le_trans grows grows', ?_, ?_, ?_, fun distinct => ?_⟩
    · rw [occupiedBy_cons]
      refine List.forall_mem_append.mpr ⟨fun range member => ?_, fun range member => ?_⟩
      · have inside := one.inside range member
        omega
      · have inside := rest.inside range member
        omega
    · rw [occupiedBy_cons]
      refine List.pairwise_append.mpr
        ⟨one.apart, rest.apart, fun first member second member' => .inl ?_⟩
      have inside := one.inside first member
      have inside' := rest.inside second member'
      omega
    · exact List.forall_mem_cons.mpr
        ⟨one.taken, fun plan member => List.Subset.trans (rest.taken plan member) one.left.subset⟩
    · refine List.pairwise_cons.mpr ⟨fun plan member => ?_, rest.fresh (distinct.sublist one.left)⟩
      exact List.disjoint_of_subset_right (rest.taken plan member) (one.fresh distinct)

/-! ### Win64 -/

/-- The registers of Win64 from a position on. -/
def registersFrom (position : Nat) : List Register :=
  win64.generalRegisters.drop position ++ win64.vectorRegisters.drop position

theorem registersFrom_succ_subset (position : Nat) :
    registersFrom (position + 1) ⊆ registersFrom position := by
  refine List.append_subset.mpr ⟨List.subset_append_of_subset_left _ ?_,
    List.subset_append_of_subset_right _ ?_⟩
  all_goals
    rw [← List.drop_drop]
    exact List.drop_subset _ _

/-- A position has registers of its own, or eight bytes of the stack. -/
inductive Positioned (position : Nat) : Place → Prop
  | stack : Positioned position (.stack (8 * position))
  | registers {place : Place} (direct : ∀ start, place ≠ .stack start)
    (taken : place.registers ⊆ registersFrom position)
    (fresh : ∀ register ∈ place.registers, register ∉ registersFrom (position + 1)) :
    Positioned position place

theorem positioned_placeWin64 (passing : Passing) (position : Nat) :
    Positioned position (placeWin64 passing position) := by
  by_cases few : position < 4
  · obtain rfl | rfl | rfl | rfl : position = 0 ∨ position = 1 ∨ position = 2 ∨ position = 3 := by
      omega
    all_goals
      cases passing <;> exact .registers nofun (by decide +kernel) (by decide +kernel)
  · have none : win64.generalRegisters[position]? = none :=
      List.getElem?_eq_none (Nat.le_of_not_lt few)
    unfold placeWin64
    rw [none]
    cases passing <;> exact .stack

/-- The address of a copy is not in a vector register. -/
theorem inVector_placeWin64 (position : Nat) (copy : Option Nat) :
    ArgumentPlan.inVector ⟨.memory, placeWin64 .memory position, copy⟩ = false := by
  unfold placeWin64
  cases win64.generalRegisters[position]? <;> rfl

theorem Positioned.taken {position : Nat} (positioned : Positioned position place) :
    place.registers ⊆ registersFrom position := by
  cases positioned with
  | stack => exact List.nil_subset _
  | registers _ taken _ => exact taken

theorem Positioned.fresh {position : Nat} (positioned : Positioned position place) :
    ∀ register ∈ place.registers, register ∉ registersFrom (position + 1) := by
  cases positioned with
  | stack => exact nofun
  | registers _ _ fresh => exact fresh

/-- An argument takes up its copy, the eight bytes of its position, or both. -/
theorem Positioned.exists_low {position size : Nat} (positioned : Positioned position place)
    {copy : Option Nat} (short : copy = none → size ≤ 8) :
    ∃ low, ArgumentPlan.ranges ⟨passing, place, copy⟩ size =
        (copy.map fun start => (start, size)).toList ++ low ∧ low.length ≤ 1 ∧
      ∀ range ∈ low, 8 * position ≤ range.1 ∧ range.1 + range.2 ≤ 8 * (position + 1) := by
  cases positioned with
  | stack =>
    cases copy with
    | none =>
      refine ⟨[(8 * position, size)], rfl, Nat.le_refl 1, List.forall_mem_singleton.mpr ?_⟩
      have short := short rfl
      dsimp only
      omega
    | some start =>
      refine ⟨[(8 * position, 8)], rfl, Nat.le_refl 1, List.forall_mem_singleton.mpr ?_⟩
      dsimp only
      omega
  | registers direct =>
    refine ⟨[], ?_, Nat.zero_le 1, nofun⟩
    cases place with
    | stack start => exact absurd rfl (direct start)
    | _ => cases copy <;> rfl

/-- What Win64 hands out to arguments, from a position on. -/
structure PositionedAll (bytes : Ty → Passing → Nat) (position copies : Nat) (types : List Ty)
    (plans : List ArgumentPlan) (last : Nat) : Prop where
  length : plans.length = types.length
  direct : ∀ plan ∈ plans, plan.copy.isSome = true → plan.inVector = false
  grows : copies ≤ last
  inside : ∀ range ∈ occupiedBy bytes types plans,
    8 * position ≤ range.1 ∧ range.1 + range.2 ≤ 8 * (position + types.length) ∨
      copies ≤ range.1 ∧ range.1 + range.2 ≤ last
  apart : (occupiedBy bytes types plans).Pairwise Separate
  taken : ∀ plan ∈ plans, plan.registers ⊆ registersFrom position
  fresh : plans.Pairwise fun first second => first.registers.Disjoint second.registers

/-- One more argument in front. -/
theorem PositionedAll.cons {position copies middle last : Nat} {copy : Option Nat}
    (rest : PositionedAll bytes (position + 1) middle types plans last) (grows : copies ≤ middle)
    (room : 8 * (position + (type :: types).length) ≤ copies)
    (positioned : Positioned position place) (short : copy = none → bytes type passing ≤ 8)
    (copied : ∀ start ∈ copy, copies ≤ start ∧ start + bytes type passing ≤ middle)
    (direct : copy.isSome = true → ArgumentPlan.inVector ⟨passing, place, copy⟩ = false) :
    PositionedAll bytes position copies (type :: types) (⟨passing, place, copy⟩ :: plans) last := by
  obtain ⟨low, ranges, single, low'⟩ : ∃ low,
      ArgumentPlan.ranges ⟨passing, place, copy⟩ (bytes type passing) =
        (copy.map fun start => (start, bytes type passing)).toList ++ low ∧ low.length ≤ 1 ∧
      ∀ range ∈ low, 8 * position ≤ range.1 ∧ range.1 + range.2 ≤ 8 * (position + 1) :=
    positioned.exists_low short
  rw [List.length_cons] at room
  have grows' := rest.grows
  generalize high : (copy.map fun start => (start, bytes type passing)).toList = copied' at ranges
  have high' : ∀ range ∈ copied', copies ≤ range.1 ∧ range.1 + range.2 ≤ middle := by
    subst high
    intro range member
    obtain ⟨start, found, rfl⟩ := Option.map_eq_some_iff.mp (Option.mem_toList.mp member)
    exact copied start found
  have few : ∀ ranges : List (Nat × Nat), ranges.length ≤ 1 → ranges.Pairwise Separate := by
    rintro (_ | ⟨first, _ | ⟨second, others⟩⟩) short
    · exact .nil
    · exact List.pairwise_singleton _ _
    · simp at short
  refine ⟨congrArg (· + 1) rest.length, List.forall_mem_cons.mpr ⟨direct, rest.direct⟩,
    Nat.le_trans grows grows', ?_, ?_, List.forall_mem_cons.mpr ⟨positioned.taken, ?_⟩,
    List.pairwise_cons.mpr ⟨?_, rest.fresh⟩⟩
  · rw [occupiedBy_cons, ranges]
    refine List.forall_mem_append.mpr ⟨List.forall_mem_append.mpr ⟨?_, ?_⟩, ?_⟩
    all_goals
      intro range member
      rw [List.length_cons]
    · have inside := high' range member
      omega
    · have inside := low' range member
      omega
    · have inside := rest.inside range member
      omega
  · rw [occupiedBy_cons, ranges]
    refine List.pairwise_append.mpr ⟨List.pairwise_append.mpr ⟨few _ ?_, few _ single, ?_⟩,
      rest.apart, ?_⟩
    · subst high
      cases copy <;> simp
    · intro first member second member'
      have inside := high' first member
      have inside' := low' second member'
      exact .inr (by omega)
    · intro first member second member'
      have inside := rest.inside second member'
      rcases List.mem_append.mp member with copy | position
      · have inside' := high' first copy
        rcases inside with low | high
        · exact .inr (by omega)
        · exact .inl (by omega)
      · have inside' := low' first position
        exact .inl (by omega)
  · intro plan member
    exact List.Subset.trans (rest.taken plan member) (registersFrom_succ_subset position)
  · intro plan member register one other
    exact positioned.fresh register one (rest.taken plan member other)

theorem AllotsFrom.positionedAll {position copies last : Nat} (measures : win64.Measures bytes)
    (room : 8 * (position + types.length) ≤ copies)
    (allots : AllotsFrom position copies types plans last) :
    PositionedAll bytes position copies types plans last := by
  induction allots with
  | nil =>
    exact ⟨rfl, List.forall_mem_nil _, Nat.le_refl _, List.forall_mem_nil _, .nil,
      List.forall_mem_nil _, .nil⟩
  | @copied type types plans position copies align size last known aligned sized _ ih =>
    have room' := room
    rw [List.length_cons] at room'
    have above := le_roundUp copies (max align 16)
    refine (ih (by omega)).cons (by omega) room (positioned_placeWin64 .memory position) nofun ?_
      fun _ => inVector_placeWin64 position _
    rintro start found
    obtain rfl := Option.some.inj found
    rw [measures.memory, Ty.bytes_eq sized]
    exact ⟨above, Nat.le_refl _⟩
  | @direct type types passing plans position copies last known direct _ ih =>
    have room' := room
    rw [List.length_cons] at room'
    exact (ih (by omega)).cons (Nat.le_refl _) room (positioned_placeWin64 passing position)
      (fun _ => measures.direct type passing known direct) nofun nofun

/-- The copies of a plan start above all places of arguments on the stack. -/
theorem le_firstCopy (position count : Nat) :
    8 * (position + count) ≤ roundUp (max shadowSpace (8 * (position + count))) 16 :=
  Nat.le_trans (Nat.le_max_right _ _) (le_roundUp _ 16)

theorem PositionedAll.le_last {position copies last : Nat}
    (positioned : PositionedAll bytes position copies types plans last)
    (room : 8 * (position + types.length) ≤ copies) :
    ∀ range ∈ occupiedBy bytes types plans, range.1 + range.2 ≤ last := by
  intro range member
  have grows := positioned.grows
  have inside := positioned.inside range member
  omega

/-! ### Plans -/

/-- The registers that carry arguments. -/
def argumentRegisters (convention : Convention) : List Register :=
  convention.generalRegisters ++ convention.vectorRegisters

/-- **A plan that hands out nothing twice**: the bytes of the arguments are apart and within the
area, and so are their registers, which are argument registers. That of a result in memory is not
handed out at all. -/
structure Distinct (convention : Convention) (types : List Ty) (plan : CallPlan) : Prop where
  length : plan.arguments.length = types.length
  direct : ∀ argument ∈ plan.arguments, argument.copy.isSome = true → argument.inVector = false
  apart : (occupied types plan.arguments).Pairwise Separate
  inside : ∀ range ∈ occupied types plan.arguments, range.1 + range.2 ≤ plan.stackSize
  fresh : plan.arguments.Pairwise fun first second => first.registers.Disjoint second.registers
  registers : ∀ argument ∈ plan.arguments, argument.registers ⊆ convention.argumentRegisters
  hidden : plan.result = some .memory → ∀ argument ∈ plan.arguments,
    convention.hiddenRegister ∉ argument.registers

/-- By any measure, the bytes of the arguments are apart and within the area. -/
theorem separate_of_plan (measures : convention.Measures bytes)
    (planned : convention.plan types result = .ok plan) :
    (occupiedBy bytes types plan.arguments).Pairwise Separate ∧
      ∀ range ∈ occupiedBy bytes types plan.arguments, range.1 + range.2 ≤ plan.stackSize := by
  cases (plan_eq_ok_iff.mp planned).2 with
  | @systemV _ _ last allots =>
    have taken := allots.takenAll measures
    exact ⟨taken.apart, fun range member =>
      Nat.le_trans (taken.inside range member).2 (le_roundUp last.stack 16)⟩
  | @win64 _ _ last allots =>
    have positioned := allots.positionedAll measures (le_firstCopy _ _)
    exact ⟨positioned.apart, fun range member =>
      Nat.le_trans (positioned.le_last (le_firstCopy _ _) range member) (le_roundUp last 16)⟩

theorem distinct_of_plan (planned : convention.plan types result = .ok plan) :
    convention.Distinct types plan := by
  have ⟨apart, inside⟩ := separate_of_plan measures_bytes planned
  cases (plan_eq_ok_iff.mp planned).2 with
  | systemV allots =>
    have taken := allots.takenAll measures_bytes
    refine ⟨taken.length, fun argument member copied => ?_, apart, inside, taken.fresh ?_,
      fun argument member => ?_, fun memory argument member inside => ?_⟩
    · rw [taken.plain argument member] at copied
      cases copied
    · split <;> decide +kernel
    · refine List.Subset.trans (taken.taken argument member) ?_
      dsimp only
      split <;> decide +kernel
    · have known := taken.taken argument member inside
      rw [if_pos memory] at known
      exact absurd known (by decide +kernel)
  | win64 allots =>
    have positioned := allots.positionedAll measures_bytes (le_firstCopy _ _)
    refine ⟨positioned.length, positioned.direct, apart, inside, positioned.fresh,
      fun argument member => ?_, fun memory argument member inside => ?_⟩
    · refine List.Subset.trans (positioned.taken argument member) ?_
      split <;> decide +kernel
    · have known := positioned.taken argument member inside
      rw [if_pos memory] at known
      exact absurd known (by decide +kernel)

/-- The argument area takes up a multiple of sixteen bytes. -/
theorem dvd_stackSize (planned : convention.plan types result = .ok plan) :
    16 ∣ plan.stackSize := by
  cases (plan_eq_ok_iff.mp planned).2 <;> exact dvd_roundUp _ (by decide)

/-! ### Agreement -/

/-- Under System V what follows an argument has no influence on its plan. -/
theorem Allots.of_append (allots : Allots supply (types ++ more) plans last) :
    ∃ next, Allots supply types (plans.take types.length) next := by
  induction types generalizing supply plans with
  | nil => exact ⟨supply, .nil supply⟩
  | cons type types ih =>
    cases allots with
    | cons known takes rest =>
      obtain ⟨next, own⟩ := ih rest
      exact ⟨next, .cons known takes own⟩

/-- Under Win64 it has an influence on the places of copies only, since they start above the stack
arguments, wherever these end. -/
theorem AllotsFrom.of_append {position copies last : Nat}
    (allots : AllotsFrom position copies (types ++ more) plans last) (copies' : Nat) :
    ∃ own last', AllotsFrom position copies' types own last' ∧
      List.Forall₂ ArgumentPlan.Alike own (plans.take types.length) := by
  induction types generalizing position copies copies' plans with
  | nil => exact ⟨[], copies', .nil position copies', .nil⟩
  | cons type types ih =>
    cases allots with
    | @copied _ _ _ _ _ align size _ known aligned sized rest =>
      obtain ⟨own, last', allots, alike⟩ := ih rest (roundUp copies' (max align 16) + size)
      exact ⟨_, last', .copied known aligned sized allots, .cons ⟨⟨rfl, rfl⟩, rfl⟩ alike⟩
    | direct known direct rest =>
      obtain ⟨own, last', allots, alike⟩ := ih rest copies'
      exact ⟨_, last', .direct known direct allots, .cons (.refl _) alike⟩

/-- The first arguments of a plan have one of their own, in which they are passed alike. -/
theorem exists_alike_of_append (planned : convention.plan (types ++ more) result = .ok whole) :
    ∃ plan, convention.plan types result = .ok plan ∧
      List.Forall₂ ArgumentPlan.Alike plan.arguments (whole.arguments.take types.length) := by
  obtain ⟨known, planned⟩ := plan_eq_ok_iff.mp planned
  cases planned with
  | systemV allots =>
    obtain ⟨next, own⟩ := allots.of_append
    refine ⟨_, plan_eq_ok_iff.mpr ⟨?_, .systemV own⟩, ?_⟩
    · exact known
    · exact List.forall₂_same.mpr fun plan _ => .refl plan
  | win64 allots =>
    obtain ⟨own, last, allots, alike⟩ := allots.of_append _
    refine ⟨_, plan_eq_ok_iff.mpr ⟨?_, .win64 allots⟩, ?_⟩
    · exact known
    · exact alike

theorem result_eq_of_plans (planned : convention.plan types result = .ok plan)
    (planned' : convention.plan more result = .ok whole) : plan.result = whole.result :=
  Except.ok.inj ((result_of_plan planned).symm.trans (result_of_plan planned'))

/-- **A plan for more arguments is one for the first of them**: there is one for these alone, with
the result in the same place, and each of them is passed alike, in the same place, with or without a
copy. -/
theorem plan_of_append (planned : convention.plan (types ++ more) result = .ok whole) :
    ∃ plan, convention.plan types result = .ok plan ∧ plan.result = whole.result ∧
      plan.arguments.length = types.length ∧
      List.Forall₂ ArgumentPlan.Alike plan.arguments (whole.arguments.take types.length) := by
  obtain ⟨plan, own, alike⟩ := exists_alike_of_append planned
  exact ⟨plan, own, result_eq_of_plans own planned, (distinct_of_plan own).length, alike⟩

/-- Three integers of eight bytes. -/
def triple : Ty := .array 3 (.int 64)

/-- With three more arguments the copy of the second one lies sixteen bytes higher. -/
theorem plan_of_append_triple : ∃ plan whole,
    win64.plan [.int 32, triple] triple = .ok plan ∧
    win64.plan ([.int 32, triple] ++ [.float .double, triple, .int 8]) triple = .ok whole ∧
    plan.arguments.map ArgumentPlan.copy = [none, some 32] ∧
    (whole.arguments.take 2).map ArgumentPlan.copy = [none, some 48] ∧
    plan.result = whole.result ∧
    List.Forall₂ ArgumentPlan.Alike plan.arguments (whole.arguments.take 2) := by
  obtain ⟨whole, planned, higher⟩ : ∃ whole,
      win64.plan ([.int 32, triple] ++ [.float .double, triple, .int 8]) triple = .ok whole ∧
        (whole.arguments.take 2).map ArgumentPlan.copy = [none, some 48] := ⟨_, rfl, rfl⟩
  obtain ⟨plan, own, lower⟩ : ∃ plan, win64.plan [.int 32, triple] triple = .ok plan ∧
      plan.arguments.map ArgumentPlan.copy = [none, some 32] := ⟨_, rfl, rfl⟩
  obtain ⟨plan', own', same, _, alike⟩ := plan_of_append planned
  obtain rfl := Except.ok.inj (own.symm.trans own')
  exact ⟨plan, whole, own, planned, lower, higher, same, alike⟩

/-- **A callee finds the first arguments where the caller has put them**, however many follow. -/
theorem agree_of_plan (planned : convention.plan types result = .ok plan)
    (planned' : convention.plan (types ++ more) result = .ok whole) :
    plan.result = whole.result ∧ ∃ first rest, whole.arguments = first ++ rest ∧
      List.Forall₂ ArgumentPlan.Agrees plan.arguments first := by
  obtain ⟨own, planned'', alike⟩ := exists_alike_of_append planned'
  obtain rfl := Except.ok.inj (planned.symm.trans planned'')
  exact ⟨result_eq_of_plans planned planned', whole.arguments.take types.length,
    whole.arguments.drop types.length, (List.take_append_drop _ _).symm,
    alike.imp fun _ _ alike => alike.toAgrees⟩

end Convention

end SsaAmd64
