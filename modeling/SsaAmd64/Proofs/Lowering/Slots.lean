/-
**Home slots do not overlap.**

Slots are handed out one below the other, and storage takes up what lies between them. So the slots
of two values are apart, whatever their types.

* `Frame.Stacked`: the depths of slots that lie one below the other;
* `Frame.exists_stacked_of`: the slots of the frame of a function do;
* `Frame.depth_allocate_le`: how deep a frame of integers gets.
-/

import SsaAmd64.Proofs.Lowering.Rooms
import SsaAmd64.Proofs.Semantics.Integer

namespace SsaAmd64

namespace Frame

/-- The bytes that a value takes up. A type without layout takes up none. -/
def bytesOf (m : Module) (id : ValueId) : Nat :=
  (m.typeOf id).size.toOption.getD 0

/-- **Slots that lie one below the other**, each with the depth of its lowest byte. -/
structure Stacked (m : Module) (frame : Frame) (depths : List (ValueId × Nat)) : Prop where
  slots : frame.slots = depths.map fun slot => (slot.1, displacement slot.2)
  inside : ∀ slot ∈ depths, bytesOf m slot.1 ≤ slot.2 ∧ slot.2 ≤ frame.depth
  below : depths.Pairwise fun upper lower => upper.2 + bytesOf m lower.1 ≤ lower.2

variable {m : Module} {frame final : Frame} {depths : List (ValueId × Nat)} {id : ValueId}
variable {extent : Extent} {ids : List ValueId}

theorem bytesOf_of_extent (laid : (m.typeOf id).extent = .ok extent) :
    bytesOf m id = extent.size := by
  rw [bytesOf, size_of_extent laid]
  rfl

/-- Rooms of homes are slots. -/
theorem Packed.stacked {rooms : List Room} (packed : Packed m frame rooms) :
    Stacked m frame (rooms.filterMap Room.home?) := by
  have known : ∀ room ∈ rooms, ∀ slot, room.home? = some slot →
      bytesOf m slot.1 = room.extent.size ∧ slot.2 = room.depth := by
    intro room member slot home
    obtain ⟨id, item, rfl⟩ := Option.map_eq_some_iff.mp home
    have laid := packed.laid room member
    cases same : room.item with
    | home id' =>
      rw [same] at item laid
      obtain rfl := Option.some.inj item
      exact ⟨bytesOf_of_extent laid, rfl⟩
    | storage id' =>
      rw [same] at item
      cases item
  constructor
  case slots => exact packed.slots
  case inside =>
    intro slot member
    obtain ⟨room, inside, home⟩ := List.mem_filterMap.mp member
    obtain ⟨size, depth⟩ := known room inside slot home
    rw [size, depth]
    exact packed.inside room inside
  case below =>
    refine List.pairwise_filterMap.mpr (packed.below.imp_of_mem ?_)
    intro room other inside inside' below slot home slot' home'
    rw [(known room inside slot home).2, (known other inside' slot' home').1,
      (known other inside' slot' home').2]
    exact below

/-- **The slots of a function lie one below the other.** -/
theorem exists_stacked_of {function : ValueId} (done : Frame.of m function = .ok final) :
    ∃ depths, Stacked m final depths ∧ depths.map Prod.fst = homes m function := by
  obtain ⟨rooms, packed, needed⟩ := exists_packed_of done
  refine ⟨_, packed.stacked, ?_⟩
  have values : (rooms.filterMap Room.home?).map Prod.fst =
      (rooms.map Room.item).filterMap Item.home? := by
    simp only [List.map_filterMap, List.filterMap_map, Room.home?, Option.map_map, Function.comp_def,
      Option.map_id']
  rw [values, needed, filterMap_items]

namespace Stacked

variable {start : Int} {first second : ValueId × Nat}

theorem slot?_eq_some (stacked : Stacked m frame depths) (found : frame.slot? id = some start) :
    ∃ depth, (id, depth) ∈ depths ∧ start = displacement depth := by
  rw [slot?, stacked.slots] at found
  have member := mem_of_lookup found
  obtain ⟨⟨key, depth⟩, inside, same⟩ := List.mem_map.mp member
  cases same
  exact ⟨depth, inside, rfl⟩

/-- Slots of different values do not overlap. -/
theorem apart (stacked : Stacked m frame depths) (one : first ∈ depths) (other : second ∈ depths)
    (different : first.1 ≠ second.1) :
    first.2 + bytesOf m second.1 ≤ second.2 ∨ second.2 + bytesOf m first.1 ≤ first.2 :=
  or_of_pairwise stacked.below one other fun same => different (congrArg Prod.fst same)

theorem slot?_of_mem (stacked : Stacked m frame depths) (member : id ∈ depths.map Prod.fst) :
    ∃ start, frame.slot? id = some start := by
  obtain ⟨slot, inside, rfl⟩ := List.mem_map.mp member
  refine Option.isSome_iff_exists.mp ?_
  rw [slot?, stacked.slots, List.lookup_isSome_iff]
  exact ⟨(slot.1, displacement slot.2), List.mem_map_of_mem inside, beq_self_eq_true slot.1⟩

end Stacked

/-! ### What a frame has been made of -/

variable {function : ValueId}

/-- What has a slot has a layout. -/
theorem extent_of_home (done : Frame.of m function = .ok final) (home : id ∈ homes m function) :
    ∃ extent, (m.typeOf id).extentInCode = .ok extent := by
  obtain ⟨rooms, packed, needed⟩ := exists_packed_of done
  obtain ⟨room, member, item⟩ := List.mem_map.mp (needed ▸ home_mem_items home)
  have laid := packed.laid room member
  rw [item] at laid
  exact ⟨room.extent, congrArg (Except.mapError Failure.layout) laid⟩

/-- Every `alloc` of a function has storage. -/
theorem storage?_of_alloc {storage : Ty} (done : Frame.of m function = .ok final)
    (home : id ∈ homes m function) (alloc : m.opcode? id = some (.alloc storage)) :
    ∃ start, final.storage? id = some start := by
  obtain ⟨rooms, packed, needed⟩ := exists_packed_of done
  exact packed.exists_start (needed ▸ storage_mem_items home alloc)

/-- The storage of an `alloc` starts within the frame. -/
theorem exists_depth_of_storage? {start : Int} (done : Frame.of m function = .ok final)
    (found : final.storage? id = some start) :
    ∃ depth ≤ final.depth, start = displacement depth := by
  obtain ⟨rooms, packed, _⟩ := exists_packed_of done
  have found' : final.start? (.storage id) = some start := found
  obtain ⟨room, member, _, place⟩ := packed.exists_room found'
  exact ⟨room.depth, (packed.inside room member).2, place.symm⟩

/-! ### Frames of integers -/

theorem extent_of_integral {type : Ty} (integral : type.IsIntegral)
    (layout : type.extentInCode = .ok extent) : extent.size ≤ 8 ∧ extent.align ≤ 8 := by
  obtain ⟨width, member, rfl⟩ := integral
  have known := ok_of_mapError layout
  simp only [registerWidths, List.mem_cons, List.not_mem_nil, or_false] at member
  rcases member with rfl | rfl | rfl | rfl | rfl <;>
  · obtain rfl := Except.ok.inj known
    decide

theorem depth_allocate_le
    (integral : ∀ id ∈ ids, (m.typeOf id).IsIntegral ∧ ∀ storage, m.opcode? id ≠ some (.alloc storage))
    (done : allocate m frame ids = .ok final) : final.depth ≤ frame.depth + 16 * ids.length := by
  induction ids generalizing frame with
  | nil =>
    obtain rfl := Except.ok.inj done
    exact Nat.le_refl _
  | cons id ids ih =>
    obtain ⟨extent, layout, rest⟩ := ok_of_bind done
    obtain ⟨⟨type, plain⟩, others⟩ := List.forall_mem_cons.mp integral
    have small := extent_of_integral type layout
    have deeper : frame.deepen extent ≤ frame.depth + extent.size + extent.align :=
      roundUp_le _ _
    split at rest
    case h_1 storage same => exact absurd same (plain storage)
    case h_2 =>
      have later := ih others rest
      have depth : (frame.addSlot id extent).depth = frame.deepen extent := rfl
      rw [List.length_cons]
      omega

end Frame

end SsaAmd64
