/-
**Exclusive places.**

A call plan assigns no place twice. Registers go to one argument each, the one that addresses a
result in memory included; each argument on the stack has eight bytes or, where it lies there as a
whole, all of its own; and so has each copy that a caller makes.

* `reservedBytes`: what an argument takes up in the area;
* `Convention.Suits`: a place that suits the type of an argument;
* `Convention.suits_of_plan`, `Convention.nodup_of_plan`, `Convention.vectorCount_of_plan`: the
  places, the registers and the number of the vector registers of a plan;
* `Convention.exclusive_of_plan`: a plan assigns no place twice.
-/

import Mathlib.Data.List.Nodup
import SsaAmd64.Proofs.Abi.Area

namespace SsaAmd64

open Asm

/-- The bytes of the argument area that are kept for an argument: as many as it has if it lies in
memory, and the eight of a register if not. -/
def reservedBytes (type : Ty) (passing : Passing) : Nat :=
  if passing = .memory then type.bytes else 8

/-- The offset of a place on the stack. -/
def Place.offset? : Place → Option Nat
  | .stack offset => some offset
  | _ => none

/-- No range of an argument lies below both of its offsets. -/
theorem ArgumentPlan.le_of_mem_ranges {plan : ArgumentPlan} {limit size : Nat}
    (copied : ∀ start ∈ plan.copy, limit ≤ start)
    (stacked : ∀ start ∈ plan.place.offset?, limit ≤ start) :
    ∀ range ∈ plan.ranges size, limit ≤ range.1 := by
  obtain ⟨passing, place, copy⟩ := plan
  cases copy <;> cases place <;> simp_all [ranges, Place.offset?]

namespace Convention

variable {convention : Convention} {type result : Ty} {types : List Ty} {plan : CallPlan}
variable {plans : List ArgumentPlan} {passing : Passing} {place : Place}
variable {supply next last : Supply} {position copies : Nat} {register : Register}

theorem measures_reservedBytes : convention.Measures reservedBytes where
  memory _ := if_pos rfl
  direct _ _ _ direct := Nat.le_of_eq (if_neg direct)

/-! ### Suitable places -/

/-- The bytes at the start of the argument area that hold no argument. -/
def freeBytes : Convention → Nat
  | systemV => 0
  | win64 => shadowSpace

/-- The least alignment of an argument in memory. -/
def memoryAlign : Convention → Nat
  | systemV => 8
  | win64 => 16

/-- Where an argument in memory starts: in its place, or in the copy whose address is there. -/
def memoryStart? : Convention → ArgumentPlan → Option Nat
  | systemV, plan => plan.place.offset?
  | win64, plan => plan.copy

/-- **A place that suits an argument of a type.** Its registers are distinct, it stays off the bytes
that hold no argument, and an argument in memory starts where its type demands it. Win64 copies
these, and nothing else is copied. -/
structure Suits (convention : Convention) (type : Ty) (plan : ArgumentPlan) : Prop where
  passing : convention.classify type = .ok plan.passing
  registers : plan.registers.Nodup
  copyAbove : ∀ start ∈ plan.copy, convention.freeBytes ≤ start
  placeAbove : ∀ start ∈ plan.place.offset?, convention.freeBytes ≤ start
  copied : plan.copy.isSome = true ↔ convention = win64 ∧ plan.passing = .memory
  memory : plan.passing = .memory → ∃ start align,
    convention.memoryStart? plan = some start ∧ type.size = .ok type.bytes ∧
    type.align = .ok align ∧ align ∣ start ∧ convention.memoryAlign ∣ start

/-- What is rounded up to the greater of two alignments is a multiple of both. -/
theorem dvd_roundUp_max (value : Nat) {align least : Nat} (known : align ∈ alignments)
    (known' : least ∈ alignments) :
    align ∣ roundUp value (max align least) ∧ least ∣ roundUp value (max align least) := by
  have both : max align least ∈ alignments := max_mem_alignments known known'
  have divides : max align least ∣ roundUp value (max align least) :=
    dvd_roundUp value (pos_of_mem_alignments _ both)
  exact ⟨Nat.dvd_trans (dvd_of_mem_alignments _ known _ both (Nat.le_max_left _ _)) divides,
    Nat.dvd_trans (dvd_of_mem_alignments _ known' _ both (Nat.le_max_right _ _)) divides⟩

theorem mem_alignments_of_align {align : Nat} (aligned : type.align = .ok align) :
    align ∈ alignments := by
  obtain ⟨extent, laid, rfl⟩ := ok_of_map aligned
  exact align_mem_alignments laid

/-! ### System V -/

/-- What does not lie in memory can be anywhere. -/
theorem suits_of_direct (known : classifySystemV type = .ok passing) (direct : passing ≠ .memory)
    (distinct : place.registers.Nodup) : systemV.Suits type ⟨passing, place, none⟩ where
  passing := known
  registers := distinct
  copyAbove := nofun
  placeAbove start _ := Nat.zero_le start
  copied := by simp
  memory memory := absurd memory direct

theorem Takes.suits (known : classifySystemV type = .ok passing)
    (takes : Takes type supply passing place next) : systemV.Suits type ⟨passing, place, none⟩ := by
  cases takes with
  | @general register => exact suits_of_direct known nofun (List.pairwise_singleton _ register)
  | @vector register => exact suits_of_direct known nofun (List.pairwise_singleton _ register)
  | stack direct => exact suits_of_direct known direct .nil
  | @memory _ align _ aligned sized =>
    have ⟨divides, divides'⟩ :=
      dvd_roundUp_max supply.stack (mem_alignments_of_align aligned) (by decide : 8 ∈ alignments)
    exact ⟨known, .nil, nofun, fun start _ => Nat.zero_le start, by simp, fun _ =>
      ⟨_, align, rfl, by rw [Ty.bytes_eq sized, sized], aligned, divides, divides'⟩⟩

/-- Each argument takes what suits it from what those before it have left. -/
theorem Allots.suits (allots : Allots supply types plans last) :
    List.Forall₂ systemV.Suits types plans := by
  induction allots with
  | nil => exact .nil
  | cons known takes _ ih => exact .cons (takes.suits known) ih

/-- An argument in a vector register, and no other, leaves one less. -/
theorem Takes.length_vector (takes : Takes type supply passing place next) :
    supply.vector.length =
      [ArgumentPlan.mk passing place none].countP ArgumentPlan.inVector + next.vector.length := by
  cases takes with
  | vector => exact Nat.add_comm _ 1
  | _ => exact (Nat.zero_add _).symm

theorem Allots.length_vector (allots : Allots supply types plans last) :
    supply.vector.length = plans.countP ArgumentPlan.inVector + last.vector.length := by
  induction allots with
  | nil => exact (Nat.zero_add _).symm
  | cons _ takes _ ih =>
    rw [takes.length_vector, ih, ← Nat.add_assoc, ← List.countP_append]
    rfl

/-! ### Win64 -/

/-- The registers of a position are distinct, and its place on the stack lies above the bytes that
are kept for the register arguments. -/
theorem place_placeWin64 (passing : Passing) (position : Nat) :
    (placeWin64 passing position).registers.Nodup ∧
      ∀ start ∈ (placeWin64 passing position).offset?, shadowSpace ≤ start := by
  by_cases few : position < 4
  · obtain rfl | rfl | rfl | rfl : position = 0 ∨ position = 1 ∨ position = 2 ∨ position = 3 := by
      omega
    all_goals
      cases passing <;> exact ⟨by decide, nofun⟩
  · have none : win64.generalRegisters[position]? = none :=
      List.getElem?_eq_none (Nat.le_of_not_lt few)
    have above : shadowSpace ≤ 8 * position := Nat.mul_le_mul_left 8 (Nat.le_of_not_lt few)
    have stacked : placeWin64 passing position = .stack (8 * position) := by
      unfold placeWin64
      rw [none]
      cases passing <;> rfl
    rw [stacked]
    exact ⟨.nil, fun start found => Option.some.inj found ▸ above⟩

/-- Copies start above those bytes if the first one does. -/
theorem AllotsFrom.suits {finish : Nat} (room : shadowSpace ≤ copies)
    (allots : AllotsFrom position copies types plans finish) :
    List.Forall₂ win64.Suits types plans := by
  induction allots with
  | nil => exact .nil
  | @copied type types plans position copies align size finish known aligned sized _ ih =>
    have ⟨registers, stacked⟩ := place_placeWin64 .memory position
    have ⟨divides, divides'⟩ :=
      dvd_roundUp_max copies (mem_alignments_of_align aligned) (by decide : 16 ∈ alignments)
    have above : shadowSpace ≤ roundUp copies (max align 16) :=
      Nat.le_trans room (le_roundUp copies _)
    refine .cons ⟨known, registers, fun start found => Option.some.inj found ▸ above, stacked,
      by simp, fun _ => ⟨_, align, rfl, ?_, aligned, divides, divides'⟩⟩
      (ih (Nat.le_add_right_of_le above))
    rw [Ty.bytes_eq sized, sized]
  | @direct type types passing plans position copies finish known direct _ ih =>
    have ⟨registers, stacked⟩ := place_placeWin64 passing position
    exact .cons ⟨known, registers, nofun, stacked, by simp [direct], fun memory =>
      absurd memory direct⟩ (ih room)

/-! ### Plans -/

/-- **Every place of a plan suits its argument.** -/
theorem suits_of_plan (planned : convention.plan types result = .ok plan) :
    List.Forall₂ convention.Suits types plan.arguments := by
  cases (plan_eq_ok_iff.mp planned).2 with
  | systemV allots => exact allots.suits
  | win64 allots =>
    exact allots.suits (Nat.le_trans (Nat.le_max_left _ _) (le_roundUp _ 16))

/-- A plan counts the arguments in vector registers. -/
theorem vectorCount_of_plan (planned : convention.plan types result = .ok plan) :
    plan.vectorCount = plan.arguments.countP ArgumentPlan.inVector := by
  cases (plan_eq_ok_iff.mp planned).2 with
  | systemV allots => exact Nat.sub_eq_of_eq_add allots.length_vector
  | win64 => rfl

/-- The registers that a plan assigns: that of the address of a result in memory, and those of the
arguments. -/
def assignedRegisters (convention : Convention) (plan : CallPlan) : List Register :=
  (if plan.result = some .memory then [convention.hiddenRegister] else []) ++
    plan.arguments.flatMap ArgumentPlan.registers

/-- Registers of suitable arguments are distinct. -/
theorem nodup_of_suits (suits : List.Forall₂ convention.Suits types plans) :
    ∀ argument ∈ plans, argument.registers.Nodup := by
  induction suits with
  | nil => exact List.forall_mem_nil _
  | cons here _ ih => exact List.forall_mem_cons.mpr ⟨here.registers, ih⟩

/-- **No register is assigned twice.** -/
theorem nodup_of_plan (planned : convention.plan types result = .ok plan) :
    (convention.assignedRegisters plan).Nodup := by
  have distinct := distinct_of_plan planned
  have apart : (plan.arguments.flatMap ArgumentPlan.registers).Nodup :=
    List.nodup_flatMap.mpr ⟨nodup_of_suits (suits_of_plan planned), distinct.fresh⟩
  unfold assignedRegisters
  split
  case isTrue memory =>
    refine List.nodup_cons.mpr ⟨fun member => ?_, apart⟩
    obtain ⟨argument, inside, held⟩ := List.mem_flatMap.mp member
    exact distinct.hidden memory argument inside held
  case isFalse => exact apart

/-- The bytes kept for suitable arguments are not those that hold none. -/
theorem le_of_suits (suits : List.Forall₂ convention.Suits types plans) :
    ∀ range ∈ occupiedBy reservedBytes types plans, convention.freeBytes ≤ range.1 := by
  induction suits with
  | nil => exact List.forall_mem_nil _
  | cons here _ ih =>
    rw [occupiedBy_cons]
    exact List.forall_mem_append.mpr
      ⟨ArgumentPlan.le_of_mem_ranges here.copyAbove here.placeAbove, ih⟩

/-- **A plan that assigns no place twice**, neither a register nor a byte of the argument area, with
places that suit the arguments. -/
structure Exclusive (convention : Convention) (types : List Ty) (plan : CallPlan) : Prop where
  suits : List.Forall₂ convention.Suits types plan.arguments
  registers : (convention.assignedRegisters plan).Nodup
  apart : (occupiedBy reservedBytes types plan.arguments).Pairwise Separate
  inside : ∀ range ∈ occupiedBy reservedBytes types plan.arguments,
    convention.freeBytes ≤ range.1 ∧ range.1 + range.2 ≤ plan.stackSize
  stackSize : 16 ∣ plan.stackSize
  vectorCount : plan.vectorCount = plan.arguments.countP ArgumentPlan.inVector

/-- **A call plan assigns no place twice.** -/
theorem exclusive_of_plan (planned : convention.plan types result = .ok plan) :
    convention.Exclusive types plan := by
  have suits := suits_of_plan planned
  have ⟨apart, inside⟩ := separate_of_plan measures_reservedBytes planned
  exact ⟨suits, nodup_of_plan planned, apart,
    fun range member => ⟨le_of_suits suits range member, inside range member⟩,
    dvd_stackSize planned, vectorCount_of_plan planned⟩

/-- Two floats, two integers and two aggregates that do not travel in registers. -/
def sixTypes : List Ty :=
  [.float .double, .int 32, .float .single, triple, .int 64, .array 3 (.int 8)]

/-- With a result in memory, too, the copies of the aggregates lie behind the places of the last
three arguments on the stack. -/
theorem exclusive_of_plan_six : ∃ plan, win64.plan sixTypes triple = .ok plan ∧
    win64.Exclusive sixTypes plan ∧
    occupiedBy reservedBytes sixTypes plan.arguments =
      [(64, 24), (32, 8), (40, 8), (96, 3), (48, 8)] ∧
    win64.assignedRegisters plan = [.rcx, .xmm 1, .rdx, .r8, .xmm 3, .r9] := by
  obtain ⟨plan, planned, ranges, registers⟩ : ∃ plan, win64.plan sixTypes triple = .ok plan ∧
      occupiedBy reservedBytes sixTypes plan.arguments =
        [(64, 24), (32, 8), (40, 8), (96, 3), (48, 8)] ∧
      win64.assignedRegisters plan = [.rcx, .xmm 1, .rdx, .r8, .xmm 3, .r9] :=
    ⟨_, rfl, by decide, by decide⟩
  exact ⟨plan, planned, exclusive_of_plan planned, ranges, registers⟩

end Convention

end SsaAmd64
