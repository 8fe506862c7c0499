/-
**Rooms of a frame.**

A frame has room for the value of each parameter and of each instruction with a result, and one more
for the storage of each `alloc`. Rooms are handed out one below the other, each at a multiple of its
alignment.

* `Frame.Item`: what a frame has room for;
* `Frame.houseAll`: rooms handed out item by item;
* `Frame.Packed`: rooms that lie one below the other;
* `Frame.exists_packed_of`: the rooms of the frame of a function do.
-/

import SsaAmd64.Lowering.Frame
import SsaAmd64.Proofs.Layout.Extents

namespace SsaAmd64

section

variable {κ α : Type} [BEq κ] [LawfulBEq κ] {key : κ} {value : α} {pairs : List (κ × α)}

theorem mem_of_lookup (found : pairs.lookup key = some value) : (key, value) ∈ pairs := by
  obtain ⟨before, after, rfl, _⟩ := List.lookup_eq_some_iff.mp found
  exact List.mem_append_right _ List.mem_cons_self

theorem lookup_of_mem (distinct : (pairs.map Prod.fst).Nodup) (member : (key, value) ∈ pairs) :
    pairs.lookup key = some value := by
  obtain ⟨before, after, rfl⟩ := List.append_of_mem member
  rw [List.map_append, List.map_cons] at distinct
  rw [List.lookup_eq_some_iff]
  refine ⟨before, after, rfl, fun pair earlier => ?_⟩
  have different := (List.nodup_append.mp distinct).2.2 pair.1 (List.mem_map_of_mem earlier) key
    List.mem_cons_self
  exact bne_iff_ne.mpr (Ne.symm different)

end

/-- Of two members of a list that is in order, one comes before the other. -/
theorem or_of_pairwise {α : Type} {order : α → α → Prop} {members : List α} {one other : α}
    (ordered : members.Pairwise order) (first : one ∈ members) (second : other ∈ members)
    (different : one ≠ other) : order one other ∨ order other one := by
  obtain ⟨before, after, rfl⟩ := List.append_of_mem first
  have sides := List.pairwise_append.mp ordered
  rcases List.mem_append.mp second with earlier | later
  · exact .inr (sides.2.2 other earlier one List.mem_cons_self)
  · rcases List.mem_cons.mp later with rfl | later
    · exact absurd rfl different
    · exact .inl ((List.pairwise_cons.mp sides.2.1).1 other later)

namespace Frame

/-! ### Items -/

/-- What a frame has room for: the value of a parameter or instruction, or the storage of an
`alloc`. -/
inductive Item where
  | home (id : ValueId)
  | storage (id : ValueId)
deriving DecidableEq

/-- The value that has its home there. -/
def Item.home? : Item → Option ValueId
  | .home id => some id
  | .storage _ => none

/-- The type of what is kept in a room. -/
def Item.type (m : Module) : Item → Ty
  | home id => m.typeOf id
  | storage id =>
    match m.opcode? id with
    | some (.alloc type) => type
    | _ => .void

/-- What a value needs room for. -/
def itemsOf (m : Module) (id : ValueId) : List Item :=
  match m.opcode? id with
  | some (.alloc _) => [.home id, .storage id]
  | _ => [.home id]

/-- What a function needs room for, in order. -/
def items (m : Module) (function : ValueId) : List Item :=
  (homes m function).flatMap (itemsOf m)

/-- The displacement of the room for an item. -/
def start? (frame : Frame) : Item → Option Int
  | .home id => frame.slot? id
  | .storage id => frame.storage? id

/-- Hands out room for an item. -/
def house (frame : Frame) (extent : Extent) : Item → Frame
  | .home id => frame.addSlot id extent
  | .storage id => frame.addStorage id extent

/-- Hands out room for items, one after the other. -/
def houseAll (m : Module) (frame : Frame) : List Item → Except Failure Frame
  | [] => .ok frame
  | item :: items => do houseAll m (frame.house (← (item.type m).extentInCode) item) items

variable {m : Module} {function id : ValueId} {frame final : Frame} {extent : Extent} {item : Item}
variable {start : Int}

theorem itemsOf_alloc {type : Ty} (alloc : m.opcode? id = some (.alloc type)) :
    itemsOf m id = [.home id, .storage id] ∧ (Item.storage id).type m = type := by
  rw [itemsOf, Item.type, alloc]
  exact ⟨rfl, rfl⟩

theorem itemsOf_plain (plain : ∀ type, m.opcode? id ≠ some (.alloc type)) :
    itemsOf m id = [.home id] := by
  rw [itemsOf]
  split
  case h_1 type alloc => exact absurd alloc (plain type)
  case h_2 => rfl

theorem allocate_eq (m : Module) (frame : Frame) (ids : List ValueId) :
    allocate m frame ids = houseAll m frame (ids.flatMap (itemsOf m)) := by
  induction ids generalizing frame with
  | nil => rfl
  | cons id ids ih =>
    rw [List.flatMap_cons, allocate]
    split
    case h_1 type alloc =>
      obtain ⟨items, inner⟩ := itemsOf_alloc alloc
      simp only [items, List.cons_append, List.nil_append, houseAll, inner, ih]
      rfl
    case h_2 plain =>
      simp only [itemsOf_plain plain, List.cons_append, List.nil_append, houseAll, ih]
      rfl

theorem of_eq (m : Module) (function : ValueId) :
    Frame.of m function = houseAll m empty (items m function) :=
  allocate_eq m empty (homes m function)

theorem filterMap_items (m : Module) (function : ValueId) :
    (items m function).filterMap Item.home? = homes m function := by
  have home (id : ValueId) : (itemsOf m id).filterMap Item.home? = [id] := by
    rw [itemsOf]
    split <;> rfl
  simp only [items, List.filterMap_flatMap, home, List.flatMap_singleton']

theorem home_mem_items (home : id ∈ homes m function) : .home id ∈ items m function := by
  refine List.mem_flatMap.mpr ⟨id, home, ?_⟩
  rw [itemsOf]
  split <;> exact List.mem_cons_self

theorem storage_mem_items {type : Ty} (home : id ∈ homes m function)
    (alloc : m.opcode? id = some (.alloc type)) : .storage id ∈ items m function := by
  refine List.mem_flatMap.mpr ⟨id, home, ?_⟩
  rw [(itemsOf_alloc alloc).1]
  exact List.mem_cons_of_mem _ List.mem_cons_self

/-! ### Rooms one below the other -/

/-- A room, with the depth of its lowest byte. -/
structure Room where
  item : Item
  extent : Extent
  depth : Nat

/-- The item that a room is for, with the displacement that it is found by. -/
def Room.entry (room : Room) : Item × Int :=
  (room.item, displacement room.depth)

/-- The value that has its home in a room, with the depth of the room. -/
def Room.home? (room : Room) : Option (ValueId × Nat) :=
  room.item.home?.map fun id => (id, room.depth)

/-- **Rooms that lie one below the other**, each at a multiple of its alignment and the last at the
bottom of the frame. -/
structure Packed (m : Module) (frame : Frame) (rooms : List Room) : Prop where
  slots : frame.slots = (rooms.filterMap Room.home?).map fun slot => (slot.1, displacement slot.2)
  found : ∀ item, frame.start? item = (rooms.map Room.entry).lookup item
  depth : frame.depth = (rooms.getLast?.map Room.depth).getD 0
  laid : ∀ room ∈ rooms, (room.item.type m).extent = .ok room.extent
  aligned : ∀ room ∈ rooms, room.extent.align ∣ room.depth
  inside : ∀ room ∈ rooms, room.extent.size ≤ room.depth ∧ room.depth ≤ frame.depth
  below : rooms.Pairwise fun upper lower => upper.depth + lower.extent.size ≤ lower.depth

theorem packed_empty (m : Module) : Packed m empty [] :=
  ⟨rfl, fun item => by cases item <;> rfl, rfl, nofun, nofun, nofun, .nil⟩

theorem le_deepen (frame : Frame) (extent : Extent) :
    frame.depth + extent.size ≤ frame.deepen extent :=
  le_roundUp _ _

variable {rooms : List Room} {room : Room} {wanted : List Item}

@[simp] theorem depth_house (frame : Frame) (extent : Extent) (item : Item) :
    (frame.house extent item).depth = frame.deepen extent := by
  cases item <;> rfl

theorem start?_house (frame : Frame) (extent : Extent) (item asked : Item) :
    (frame.house extent item).start? asked =
      (frame.start? asked).or ([(item, displacement (frame.deepen extent))].lookup asked) := by
  have home (id id' : ValueId) : (Item.home id == Item.home id') = (id == id') :=
    beq_eq_beq.mpr (iff_of_eq (Item.home.injEq id id'))
  have storage (id id' : ValueId) : (Item.storage id == Item.storage id') = (id == id') :=
    beq_eq_beq.mpr (iff_of_eq (Item.storage.injEq id id'))
  cases item <;> cases asked <;>
    simp [house, start?, slot?, storage?, addSlot, addStorage, List.lookup_append, List.lookup_cons,
      home, storage, beq_false_of_ne]

/-- One more room. -/
theorem Packed.house (packed : Packed m frame rooms)
    (laid : (item.type m).extent = .ok extent) :
    Packed m (frame.house extent item) (rooms ++ [⟨item, extent, frame.deepen extent⟩]) := by
  have deeper := le_deepen frame extent
  constructor
  case slots =>
    rw [List.filterMap_append, List.map_append, ← packed.slots]
    cases item with
    | home => rfl
    | storage => exact (List.append_nil _).symm
  case found =>
    intro asked
    rw [List.map_append, List.lookup_append, ← packed.found]
    exact start?_house frame extent item asked
  case depth => rw [List.getLast?_concat, depth_house, Option.map_some, Option.getD_some]
  case laid => exact List.forall_mem_append.mpr ⟨packed.laid, List.forall_mem_singleton.mpr laid⟩
  case aligned =>
    refine List.forall_mem_append.mpr ⟨packed.aligned, List.forall_mem_singleton.mpr ?_⟩
    exact dvd_roundUp _ (align_pos laid)
  case inside =>
    rw [depth_house]
    refine List.forall_mem_append.mpr ⟨fun room member => ?_, List.forall_mem_singleton.mpr ?_⟩
    · have inside := packed.inside room member
      omega
    · dsimp only
      omega
  case below =>
    refine List.pairwise_append.mpr ⟨packed.below, List.pairwise_singleton _ _, ?_⟩
    intro upper old lower new
    obtain rfl := List.mem_singleton.mp new
    have inside := packed.inside upper old
    dsimp only
    omega

theorem Packed.houseAll (packed : Packed m frame rooms)
    (done : Frame.houseAll m frame wanted = .ok final) :
    ∃ more, Packed m final (rooms ++ more) ∧ more.map Room.item = wanted := by
  induction wanted generalizing frame rooms with
  | nil =>
    obtain rfl := Except.ok.inj done
    exact ⟨[], by rwa [List.append_nil], rfl⟩
  | cons item wanted ih =>
    obtain ⟨extent, layout, rest⟩ := ok_of_bind done
    obtain ⟨more, packed', same⟩ := ih (packed.house (ok_of_mapError layout)) rest
    refine ⟨⟨item, extent, frame.deepen extent⟩ :: more, ?_, congrArg (List.cons item) same⟩
    rwa [List.append_assoc] at packed'

/-- **The rooms of a function lie one below the other.** -/
theorem exists_packed_of (done : Frame.of m function = .ok final) :
    ∃ rooms, Packed m final rooms ∧ rooms.map Room.item = Frame.items m function :=
  (packed_empty m).houseAll ((of_eq m function).symm.trans done)

namespace Packed

/-- What is in a frame is found in a room. -/
theorem exists_room (packed : Packed m frame rooms) (found : frame.start? item = some start) :
    ∃ room ∈ rooms, room.item = item ∧ displacement room.depth = start := by
  rw [packed.found] at found
  obtain ⟨room, member, same⟩ := List.mem_map.mp (mem_of_lookup found)
  obtain ⟨rfl, rfl⟩ := Prod.mk.inj same
  exact ⟨room, member, rfl, rfl⟩

/-- What has a room is found in the frame. -/
theorem exists_start (packed : Packed m frame rooms) (member : item ∈ rooms.map Room.item) :
    ∃ start, frame.start? item = some start := by
  obtain ⟨room, inside, rfl⟩ := List.mem_map.mp member
  refine Option.isSome_iff_exists.mp ?_
  rw [packed.found, List.lookup_isSome_iff]
  exact ⟨room.entry, List.mem_map_of_mem inside, beq_self_eq_true room.item⟩

theorem start?_of_mem (packed : Packed m frame rooms) (distinct : (rooms.map Room.item).Nodup)
    (member : room ∈ rooms) : frame.start? room.item = some (displacement room.depth) := by
  rw [packed.found]
  refine lookup_of_mem ?_ (List.mem_map_of_mem member)
  rwa [List.map_map]

end Packed

end Frame

end SsaAmd64
