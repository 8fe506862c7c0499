/-
**Where memory operands point.**

The constants in the code of a function are of two kinds. Those that stand for values of the
program are tested, and one that does not fit goes through a register of its own. The others come
from sizes, and there is no test for them: how far the stack pointer moves, and the displacements of
memory operands. Each of these is bounded by a number that can be read off the module.

* `Module.untested`: these numbers, for a function;
* `Lowering.Address`: where memory operands point;
* `Lowering.Spans`: pieces of memory that are all where memory operands point.
-/

import SsaAmd64.Proofs.Abi.Area
import SsaAmd64.Proofs.Lowering.Lines
import SsaAmd64.Proofs.Lowering.Parallel

namespace SsaAmd64

namespace Lowering

open Asm

/-! ### The last piece -/

/-- Where the last of the pieces starts that some bytes are moved in. -/
def lastPiece (size : Nat) : Nat :=
  size - Nat.gcd size 8

/-- The last piece is the first one, or the last of the others. -/
theorem lastPiece_eq {size : Nat} (some' : 0 < size) :
    lastPiece size = if size = (pieceWidth size).bytes then 0
      else (pieceWidth size).bytes + lastPiece (size - (pieceWidth size).bytes) := by
  by_cases wide : 8 ≤ size
  · obtain ⟨rest, rfl⟩ : ∃ rest, size = rest + 8 := ⟨size - 8, by omega⟩
    have width : (pieceWidth (rest + 8)).bytes = 8 := by
      rw [pieceWidth, if_pos wide]
      rfl
    have less : rest ≠ 0 → Nat.gcd rest 8 ≤ rest := fun positive =>
      Nat.gcd_le_left 8 (Nat.pos_of_ne_zero positive)
    rw [width, lastPiece, lastPiece, Nat.gcd_add_self_left, Nat.add_sub_cancel]
    split
    case isTrue none =>
      obtain rfl : rest = 0 := by omega
      rfl
    case isFalse more =>
      have := less (by omega)
      omega
  · have narrow : ∀ size < 8, 0 < size → lastPiece size = if size = (pieceWidth size).bytes then 0
        else (pieceWidth size).bytes + lastPiece (size - (pieceWidth size).bytes) := by decide
    exact narrow size (by omega) some'

/-- No piece starts behind the last one. -/
theorem le_lastPiece {shift size : Nat} :
    ∀ piece ∈ pieces shift size, piece.1 ≤ shift + lastPiece size := by
  induction size using Nat.strongRecOn generalizing shift with
  | ind size ih =>
    rw [pieces]
    split
    case isTrue => exact List.forall_mem_nil _
    case isFalse some' =>
      have less := pieceWidth_le (Nat.pos_of_ne_zero some')
      have positive := pieceWidth_pos size
      have last := lastPiece_eq (Nat.pos_of_ne_zero some')
      refine List.forall_mem_cons.mpr ⟨Nat.le_add_right _ _, fun piece member => ?_⟩
      have later := ih (size - (pieceWidth size).bytes) (by omega) piece member
      split at last
      case isTrue same =>
        rw [← same, Nat.sub_self, pieces, if_pos rfl] at member
        cases member
      case isFalse => omega

theorem exists_lastPiece {shift size : Nat} (some' : 0 < size) :
    ∃ width, (shift + lastPiece size, width) ∈ pieces shift size := by
  induction size using Nat.strongRecOn generalizing shift with
  | ind size ih =>
    have less := pieceWidth_le some'
    have positive := pieceWidth_pos size
    have last := lastPiece_eq some'
    rw [pieces, if_neg (by omega)]
    split at last
    case isTrue =>
      rw [last]
      exact ⟨_, List.mem_cons_self⟩
    case isFalse =>
      obtain ⟨width, member⟩ := @ih (size - (pieceWidth size).bytes) (by omega)
        (shift + (pieceWidth size).bytes) (by omega)
      rw [last, ← Nat.add_assoc]
      exact ⟨width, List.mem_cons_of_mem _ member⟩

end Lowering

/-! ### Numbers without a test -/

namespace Module

def signatureOf (m : Module) (function : ValueId) : Signature :=
  ((m.function? function).map Function.signature).getD ⟨[], .void, false⟩

/-- Where the last piece of a literal goes. -/
def literalPiece (m : Module) (value : ValueId) : List Nat :=
  if (m.literal? value).isSome then [Lowering.lastPiece (m.typeOf value).bytes] else []

/-- The plan of a call. -/
def callPlan? (m : Module) (convention : Convention) (call : ValueId) : Option CallPlan := do
  let callee ← (m.operand? call 0).bind m.function?
  let arguments := (m.operandsOf call).tail.filterMap fun slot => slot
  (convention.plan (arguments.map m.typeOf) callee.signature.result).toOption

/-- The numbers that the code of an instruction holds without a test: the areas that it reserves,
and how far from a pointer a literal is stored. -/
def untestedIn (m : Module) (convention : Convention) (plan : CallPlan) (block id : ValueId) :
    List Nat :=
  match m.opcode? id with
  | some .call => (m.callPlan? convention id).toList.map CallPlan.stackSize
  | some .br => (m.operand? id 0).toList.map (Lowering.stagingArea m block)
  | some .condbr =>
    ((m.operand? id 1).toList ++ (m.operand? id 2).toList).map (Lowering.stagingArea m block)
  | some .store => (m.operand? id 1).toList.flatMap m.literalPiece
  | some .ret =>
    if plan.result = some .memory then (m.operand? id 0).toList.flatMap m.literalPiece else []
  | _ => []

/-- How far above `%rbp` a parameter is found that comes in on the stack, or its address is. -/
def untestedFor (m : Module) (parameter : ValueId) (plan : ArgumentPlan) : List Nat :=
  match plan.copy, plan.place with
  | some _, .stack offset => [32 + offset]
  | none, .stack offset =>
    let size := (m.typeOf parameter).bytes
    if size = 0 then [] else [32 + offset + Lowering.lastPiece size]
  | _, _ => []

/-- **The numbers that the code of a function holds without a test of their size**: the size of its
frame, those of its parameters and those of its instructions. -/
def untested (m : Module) (convention : Convention) (function : ValueId) : List Nat :=
  let signature := m.signatureOf function
  (Frame.of m function).toOption.toList.map Frame.size ++
    (convention.plan signature.parameters signature.result).toOption.toList.flatMap fun plan =>
      ((m.parametersOf function).zip plan.arguments).flatMap (fun (parameter, argument) =>
        m.untestedFor parameter argument) ++
      (m.blocksOf function).flatMap fun block =>
        (m.instructionsOf block).flatMap (m.untestedIn convention plan block)

end Module

/-! ### Addresses -/

namespace Lowering

open Asm

def untested (lowering : Lowering) : List Nat :=
  lowering.subject.untested lowering.convention lowering.function

/-- **Where memory operands point**: base registers and displacements. -/
inductive Address (lowering : Lowering) : Register → Int → Prop
  /-- Into a home slot, or behind where it starts. -/
  | home {id : ValueId} {start : Int} {offset : Nat} : lowering.slot id = .ok start →
    offset ≤ lowering.frame.size → Address lowering .rbp (start + offset)
  | storage {id : ValueId} {start : Int} : lowering.frame.storage? id = some start →
    Address lowering .rbp start
  /-- To what the caller has put on the stack. -/
  | incoming {offset place bound : Nat} : bound ∈ lowering.untested → 32 + offset + place ≤ bound →
    Address lowering .rbp (incomingDisplacement offset + place)
  /-- Into an area below the frame. -/
  | area {area start place : Nat} : area ∈ lowering.untested → start + place ≤ area →
    Address lowering .rsp (signed64 start + place)
  /-- To where a pointer of the program, or of the caller, points. -/
  | pointed {base : Register} {offset bound : Nat} : base = .r11 ∨ base = resultPointer →
    bound ∈ lowering.untested → offset ≤ bound → Address lowering base offset

/-- **Bytes that are moved in pieces**, each of them where memory operands point. -/
def Spans (lowering : Lowering) (base : Register) (start : Int) (size : Nat) : Prop :=
  ∀ piece ∈ pieces 0 size, lowering.Address base (start + piece.1)

/-- A function with the frame and the plan that are its own. -/
structure Grounded (lowering : Lowering) : Prop where
  framed : Frame.of lowering.subject lowering.function = .ok lowering.frame
  planned : lowering.convention.plan (lowering.subject.signatureOf lowering.function).parameters
    (lowering.subject.signatureOf lowering.function).result = .ok lowering.plan

variable {lowering : Lowering} {id value block source target : ValueId} {base : Register}
variable {start : Int} {size next after : Nat}

theorem Address.slot (home : lowering.slot id = .ok start) : lowering.Address .rbp start := by
  have here : lowering.Address .rbp (start + ((0 : Nat) : Int)) := .home home (Nat.zero_le _)
  rwa [Int.natCast_zero, Int.add_zero] at here

theorem Address.foot {area offset : Nat} (reserved : area ∈ lowering.untested)
    (room : offset ≤ area) : lowering.Address .rsp (signed64 offset) := by
  have here : lowering.Address .rsp (signed64 offset + ((0 : Nat) : Int)) := .area reserved room
  rwa [Int.natCast_zero, Int.add_zero] at here

theorem spans_home (home : lowering.slot id = .ok start) (fits : size ≤ lowering.frame.size) :
    lowering.Spans .rbp start size := by
  intro piece member
  have inside := inside_of_mem_pieces piece member
  exact .home home (by omega)

theorem spans_area {area offset : Nat} (reserved : area ∈ lowering.untested)
    (room : offset + size ≤ area) : lowering.Spans .rsp (signed64 offset) size := by
  intro piece member
  have inside := inside_of_mem_pieces piece member
  exact .area reserved (by omega)

theorem spans_pointed {bound : Nat} (pointer : base = .r11 ∨ base = resultPointer)
    (reserved : bound ∈ lowering.untested) (room : lastPiece size ≤ bound) :
    lowering.Spans base 0 size := by
  intro piece member
  have inside := le_lastPiece piece member
  rw [Int.zero_add]
  exact .pointed pointer reserved (by omega)

theorem operand?_of_operand {slot : Nat} (filled : lowering.operand id slot = .ok value) :
    lowering.subject.operand? id slot = some value := by
  rw [operand] at filled
  split at filled
  case h_1 found =>
    rw [found, Except.ok.inj filled]
  case h_2 => cases filled

theorem operand?_of_target {slot : Nat} (leads : lowering.target id slot = .ok target) :
    lowering.subject.operand? id slot = some target := by
  rw [Lowering.target] at leads
  split at leads
  case h_1 found =>
    split at leads
    case isTrue => rw [found, Except.ok.inj leads]
    case isFalse => cases leads
  case h_2 => cases leads

theorem mem_literalPiece {literal : Literal} (sized : lowering.sizeOf value = .ok size)
    (known : lowering.subject.literal? value = some literal) :
    lastPiece size ∈ lowering.subject.literalPiece value := by
  rw [Module.literalPiece, known, Ty.bytes_eq (ok_of_mapError sized)]
  exact List.mem_singleton.mpr rfl

theorem callPlan?_of_callee {callee : ValueId} {held : Function} {plan : CallPlan}
    (called : lowering.callee id = .ok (callee, held))
    (planned : lowering.convention.plan ((lowering.trailingValues id).map lowering.subject.typeOf)
      held.signature.result = .ok plan) :
    lowering.subject.callPlan? lowering.convention id = some plan := by
  rw [Lowering.callee] at called
  split at called
  case h_2 => cases called
  case h_1 found =>
    split at called
    case h_2 => cases called
    case h_1 known =>
      cases called
      rw [Module.callPlan?, found, Option.bind_some, known]
      exact congrArg Except.toOption planned

/-! ### Numbers of a function -/

theorem grounded_of_made {printer : Printer} {options : Options} {symbols : Symbols}
    {function : ValueId}
    (made : Lowering.of printer options symbols next function = .ok (lowering, after)) :
    lowering.Grounded := by
  obtain ⟨plan, planned, made⟩ := ok_of_bind made
  obtain ⟨frame, framed, made⟩ := ok_of_bind made
  cases made
  exact ⟨framed, ok_of_mapError planned⟩

namespace Grounded

variable (grounded : lowering.Grounded)

include grounded

theorem untested_eq : lowering.untested = lowering.frame.size ::
    (((lowering.subject.parametersOf lowering.function).zip lowering.plan.arguments).flatMap
      (fun (parameter, argument) => lowering.subject.untestedFor parameter argument) ++
      (lowering.subject.blocksOf lowering.function).flatMap fun block =>
        (lowering.subject.instructionsOf block).flatMap
          (lowering.subject.untestedIn lowering.convention lowering.plan block)) := by
  rw [untested, Module.untested, grounded.framed, grounded.planned]
  simp [Except.toOption]

theorem frame_mem : lowering.frame.size ∈ lowering.untested := by
  rw [grounded.untested_eq]
  exact List.mem_cons_self

theorem parameter_mem {parameter : ValueId} {argument : ArgumentPlan} {number : Nat}
    (listed : (parameter, argument) ∈
      (lowering.subject.parametersOf lowering.function).zip lowering.plan.arguments)
    (member : number ∈ lowering.subject.untestedFor parameter argument) :
    number ∈ lowering.untested := by
  rw [grounded.untested_eq]
  exact List.mem_cons_of_mem _ (List.mem_append_left _ (List.mem_flatMap.mpr ⟨_, listed, member⟩))

theorem instruction_mem {number : Nat}
    (inside : block ∈ lowering.subject.blocksOf lowering.function)
    (listed : id ∈ lowering.subject.instructionsOf block)
    (member : number ∈ lowering.subject.untestedIn lowering.convention lowering.plan block id) :
    number ∈ lowering.untested := by
  rw [grounded.untested_eq]
  exact List.mem_cons_of_mem _ (List.mem_append_right _ (List.mem_flatMap.mpr
    ⟨block, inside, List.mem_flatMap.mpr ⟨id, listed, member⟩⟩))

/-- A slot starts within the frame, with room for its value. -/
theorem exists_depth_of_slot (home : lowering.slot id = .ok start) :
    ∃ depth ≤ lowering.frame.depth, start = Frame.displacement depth ∧
      (lowering.subject.typeOf id).bytes ≤ depth := by
  obtain ⟨depths, stacked, _⟩ := Frame.exists_stacked_of grounded.framed
  rw [slot] at home
  split at home
  case h_2 => cases home
  case h_1 found =>
    obtain ⟨depth, member, same⟩ := stacked.slot?_eq_some found
    obtain ⟨room, low⟩ := stacked.inside _ member
    exact ⟨depth, low, (Except.ok.inj home).symm.trans same, room⟩

/-- What has a slot is no larger than the frame. -/
theorem le_of_slot (home : lowering.slot id = .ok start)
    (sized : lowering.sizeOf id = .ok size) : size ≤ lowering.frame.size := by
  obtain ⟨depth, low, _, room⟩ := grounded.exists_depth_of_slot home
  rw [Ty.bytes_eq (ok_of_mapError sized)] at room
  exact (room.trans low).trans (le_roundUp _ 16)

end Grounded

end Lowering

end SsaAmd64
