/-
**Copies of an edge.**

The code of an edge copies, for each phi of the target, what the phi has for the source. Where a copy
reads the slot of another phi, all values are put on the stack first, one above the other.

* `Lowering.copiesOf`: the copies for one phi;
* `Lowering.calm_of_not_isHazardous`: without a hazard no copy reads what another writes;
* `Lowering.Staged`, `Lowering.staged_stage`: copies that lie on the stack one above the other.
-/

import Mathlib.Data.List.Forall2
import SsaAmd64.Lowering.Edge
import SsaAmd64.Proofs.Lowering.Prepared

namespace SsaAmd64

namespace Lowering

variable {lowering : Lowering} {source phi : ValueId} {sized : List ((ValueId × ValueId) × Nat)}

/-- The copy for an incoming pair, if the pair is for the edge. -/
def copyOf (source phi : ValueId) (pair : Slot × Slot) : Option (ValueId × ValueId) :=
  match pair with
  | (some value, some block) => if block = source then some (phi, value) else none
  | _ => none

/-- What an edge assigns to one phi. -/
def copiesOf (m : Module) (source phi : ValueId) : List (ValueId × ValueId) :=
  match m.instruction? phi with
  | some instruction => instruction.incoming.filterMap (copyOf source phi)
  | none => []

theorem phiCopies_eq (m : Module) (source target : ValueId) :
    phiCopies m source target = (m.instructionsOf target).flatMap (copiesOf m source) :=
  rfl

/-- Copies get the sizes of their phis. -/
theorem forall₂_of_sizes {copies : List (ValueId × ValueId)}
    {sized : List ((ValueId × ValueId) × Nat)}
    (sizes : copies.mapM (fun copy => do return (copy, ← lowering.sizeOf copy.1)) = .ok sized) :
    List.Forall₂ (fun copy result => copy = result.1 ∧ lowering.sizeOf copy.1 = .ok result.2)
      copies sized := by
  refine (forall₂_of_mapM sizes).imp fun copy result done => ?_
  obtain ⟨size, known, done⟩ := ok_of_bind done
  obtain rfl := Except.ok.inj done
  exact ⟨rfl, known⟩

theorem map_fst_of_sizes {copies : List (ValueId × ValueId)}
    {sized : List ((ValueId × ValueId) × Nat)}
    (sizes : copies.mapM (fun copy => do return (copy, ← lowering.sizeOf copy.1)) = .ok sized) :
    sized.map Prod.fst = copies := by
  have keys := map_eq_of_forall₂ (forall₂_of_sizes sizes) fun _ _ both => both.1
  rw [← keys]
  exact List.map_id _

theorem sizeOf_of_sizes {copies : List (ValueId × ValueId)}
    {sized : List ((ValueId × ValueId) × Nat)}
    (sizes : copies.mapM (fun copy => do return (copy, ← lowering.sizeOf copy.1)) = .ok sized) :
    ∀ copy ∈ sized, lowering.sizeOf copy.1.1 = .ok copy.2 := by
  have each := forall₂_of_sizes sizes
  clear sizes
  induction each with
  | nil => exact fun _ member => (nomatch member)
  | cons both _ ih => exact List.forall_mem_cons.mpr ⟨both.1 ▸ both.2, ih⟩

/-- Only pairs for the edge are copied. -/
theorem filterMap_copyOf (source phi : ValueId) (pairs : List (Slot × Slot)) :
    pairs.filterMap (copyOf source phi) =
      (pairs.filter fun pair => pair.2 = some source).filterMap (copyOf source phi) := by
  rw [List.filterMap_filter]
  refine List.filterMap_congr fun pair _ => ?_
  obtain ⟨_ | value, _ | block⟩ := pair <;> simp [copyOf]

theorem copiesOf_of_not_phi {m : Module} (other : m.hasOpcode Opcode.isPhi phi = false) :
    copiesOf m source phi = [] := by
  rw [copiesOf]
  split
  case h_1 held found =>
    rw [Module.hasOpcode, Module.opcode?, found] at other
    have ordinary : held.opcode.isPhi = false := other
    rw [Instruction.incoming, ordinary]
    rfl
  case h_2 => rfl

/-- Without a hazard no copy of an edge reads what another writes. -/
theorem calm_of_not_isHazardous {copies : List (ValueId × ValueId)}
    (sizes : copies.mapM (fun copy => do return (copy, ← lowering.sizeOf copy.1)) = .ok sized)
    (calm : ¬isHazardous copies = true) :
    ∀ copy ∈ sized, ∀ other ∈ sized, other.1.1 ≠ copy.1.2 := by
  have firsts : ∀ copy ∈ sized, copy.1 ∈ copies := by
    intro copy member
    rw [← map_fst_of_sizes sizes]
    exact List.mem_map_of_mem member
  intro copy member other member' same
  refine calm (List.any_eq_true.mpr ⟨copy.1, firsts copy member, List.any_eq_true.mpr ?_⟩)
  exact ⟨other.1, firsts other member', decide_eq_true same⟩

/-! ### Copies on the stack -/

/-- The copy of an edge that is staged. -/
def StagedCopy.copied (copy : StagedCopy) : (ValueId × ValueId) × Nat :=
  ((copy.phi, copy.value), copy.size)

/-- **Copies that lie on the stack one above the other**, from an offset on up to another. -/
structure Staged (lower upper : Nat) (copies : List StagedCopy) : Prop where
  inside : ∀ copy ∈ copies, lower ≤ copy.offset ∧ copy.offset + copy.size ≤ upper
  above : copies.Pairwise fun first second => first.offset + first.size ≤ second.offset

theorem le_stage (lower : Nat) (sized : List ((ValueId × ValueId) × Nat)) :
    lower ≤ (stage lower sized).2 := by
  induction sized generalizing lower with
  | nil => exact Nat.le_refl lower
  | cons copy sized ih =>
    show lower ≤ (stage (lower + roundUp copy.2 8) sized).2
    exact Nat.le_trans (Nat.le_add_right _ _) (ih _)

theorem staged_stage (lower : Nat) (sized : List ((ValueId × ValueId) × Nat)) :
    Staged lower (stage lower sized).2 (stage lower sized).1 := by
  induction sized generalizing lower with
  | nil => exact ⟨fun _ member => (nomatch member), .nil⟩
  | cons copy sized ih =>
    have rounded := le_roundUp copy.2 8
    have later := ih (lower + roundUp copy.2 8)
    have finish := le_stage (lower + roundUp copy.2 8) sized
    constructor
    · refine List.forall_mem_cons.mpr ⟨⟨Nat.le_refl _, ?_⟩, fun other member => ?_⟩
      · show lower + copy.2 ≤ (stage (lower + roundUp copy.2 8) sized).2
        omega
      · have inside := later.inside other member
        exact ⟨by omega, inside.2⟩
    · refine List.pairwise_cons.mpr ⟨fun other member => ?_, later.above⟩
      have inside := later.inside other member
      show lower + copy.2 ≤ other.offset
      omega

theorem map_copied_stage (lower : Nat) (sized : List ((ValueId × ValueId) × Nat)) :
    (stage lower sized).1.map StagedCopy.copied = sized := by
  induction sized generalizing lower with
  | nil => rfl
  | cons copy sized ih => exact congrArg (List.cons copy) (ih _)

/-- A copy that is staged is one of the copies, and has its place in the area. -/
theorem staged_of_mem {sized : List ((ValueId × ValueId) × Nat)} {copy : StagedCopy}
    (member : copy ∈ (stage 0 sized).1) :
    copy.copied ∈ sized ∧ copy.offset + copy.size ≤ roundUp (stage 0 sized).2 16 := by
  have listed : copy.copied ∈ (stage 0 sized).1.map StagedCopy.copied :=
    List.mem_map_of_mem member
  rw [map_copied_stage] at listed
  exact ⟨listed, ((staged_stage 0 sized).inside copy member).2.trans (le_roundUp _ 16)⟩

theorem stage_le (lower : Nat) (small : ∀ copy ∈ sized, copy.2 ≤ 8) :
    (stage lower sized).2 ≤ lower + 16 * sized.length := by
  induction sized generalizing lower with
  | nil => exact Nat.le_refl lower
  | cons copy sized ih =>
    obtain ⟨size, small⟩ := List.forall_mem_cons.mp small
    have rounded : roundUp copy.2 8 ≤ copy.2 + 8 := roundUp_le _ _
    have later := ih (lower + roundUp copy.2 8) small
    show (stage (lower + roundUp copy.2 8) sized).2 ≤ lower + 16 * (sized.length + 1)
    omega

/-! ### Slots and targets -/

theorem of_slot {id : ValueId} {start : Int} (known : lowering.slot id = .ok start) :
    lowering.frame.slot? id = some start := by
  rw [slot] at known
  split at known
  case h_1 found => rw [found, Except.ok.inj known]
  case h_2 => cases known

/-- A target of a branch is a block that a slot names. -/
theorem of_target {id target : ValueId} {slot : Nat}
    (code : lowering.target id slot = .ok target) :
    lowering.subject.operand? id slot = some target ∧ (lowering.subject.block? target).isSome := by
  rw [Lowering.target] at code
  split at code
  case h_1 value filled =>
    split at code
    case isTrue isBlock =>
      obtain rfl := Except.ok.inj code
      exact ⟨filled, isBlock⟩
    case isFalse => cases code
  case h_2 => cases code

/-- A target of a branch is a block of the function. -/
theorem Prepared.mem_blocksOf_of_target {id target : ValueId} (prepared : lowering.Prepared)
    {slot : Nat}
    (inside : id ∈ lowering.subject.bodyOf lowering.function)
    (leads : lowering.target id slot = .ok target) :
    target ∈ lowering.subject.blocksOf lowering.function := by
  obtain ⟨filled, isBlock⟩ := of_target leads
  obtain ⟨held, found⟩ := prepared.accepted.instruction? inside
  rw [Module.operand?_of_instruction? found] at filled
  obtain ⟨content, known⟩ := Option.isSome_iff_exists.mp isBlock
  have typed : lowering.subject.typeOf target = .label := Module.typeOf_block known
  exact prepared.mem_blocksOf_of_label inside found (Module.mem_values_of_operand filled) typed

end Lowering

end SsaAmd64
