/-
**Rooms are apart.**

No two rooms of a frame overlap, and each starts at a multiple of its alignment. A room is found by
the signed reading of its depth: in a frame of more than 2^63 bytes, rooms deeper than that are taken
to lie above `%rbp`.

* `Frame.displacement_apart`: rooms that do not overlap are not found to overlap either;
* `Frame.Separated`, `Frame.Below`: rooms that do not overlap, and rooms that lie below `%rbp`;
* `Module.Built.frame_separated`: what holds of every frame that the address space has room for.
-/

import SsaAmd64.Proofs.Ir.Names
import SsaAmd64.Proofs.Lowering.Returns

namespace SsaAmd64

namespace Frame

variable {m : Module} {function id : ValueId} {frame : Frame} {extent : Extent} {item : Item}
variable {start : Int} {rooms : List Room}

/-! ### Where rooms are found -/

theorem displacement_of_le {depth : Nat} (high : depth ≤ 0x8000000000000000) :
    displacement depth = -depth :=
  signed64_of_small _ (by omega) (by omega)

theorem displacement_of_lt {depth : Nat} (low : 0x8000000000000000 < depth)
    (fits : depth < 0x10000000000000000) : displacement depth = 0x10000000000000000 - depth := by
  have range : patternCount 64 = 0x10000000000000000 := by decide
  rw [displacement, signed64, Int.bmod_def, range]
  omega

/-- Rooms that do not overlap are not found to overlap either. -/
theorem displacement_apart {upper lower above below : Nat} (inside : above ≤ upper)
    (under : upper + below ≤ lower) (fits : lower < 0x10000000000000000) :
    displacement upper + above ≤ displacement lower ∨
      displacement lower + below ≤ displacement upper := by
  rcases Nat.lt_or_ge 0x8000000000000000 upper with deep | high
  · rw [displacement_of_lt deep (by omega), displacement_of_lt (by omega) fits]
    omega
  rcases Nat.lt_or_ge 0x8000000000000000 lower with deep' | high'
  · rw [displacement_of_le high, displacement_of_lt deep' fits]
    omega
  · rw [displacement_of_le high, displacement_of_le high']
    omega

theorem dvd_displacement {align depth : Nat} (known : align ∈ alignments) (divides : align ∣ depth)
    (fits : depth < 0x10000000000000000) : (align : Int) ∣ displacement depth := by
  have depth' : (align : Int) ∣ depth := Int.natCast_dvd_natCast.mpr divides
  rcases Nat.lt_or_ge 0x8000000000000000 depth with deep | high
  · have whole : ∀ align ∈ alignments, (align : Int) ∣ 0x10000000000000000 := by decide
    rw [displacement_of_lt deep fits]
    exact Int.dvd_sub (whole align known) depth'
  · rw [displacement_of_le high]
    exact Int.dvd_neg.mpr depth'

/-- **An item lies at a displacement**, with the extent of its type. -/
structure Lies (m : Module) (frame : Frame) (item : Item) (start : Int) (extent : Extent) : Prop where
  found : frame.start? item = some start
  laid : (item.type m).extent = .ok extent

theorem Packed.exists_room_of_lies (packed : Packed m frame rooms)
    (lies : frame.Lies m item start extent) :
    ∃ room ∈ rooms, room.item = item ∧ displacement room.depth = start ∧ room.extent = extent := by
  obtain ⟨room, member, rfl, place⟩ := packed.exists_room lies.found
  exact ⟨room, member, rfl, place, Except.ok.inj ((packed.laid room member).symm.trans lies.laid)⟩

/-- **Rooms that do not overlap**: a function has one for each parameter, each instruction with a
result and the storage of each `alloc`, at multiples of their alignments. -/
structure Separated (m : Module) (function : ValueId) (frame : Frame) : Prop where
  homed : ∀ id ∈ homes m function, ∃ start extent, frame.Lies m (.home id) start extent
  stored : ∀ id ∈ m.bodyOf function, ∀ type, m.opcode? id = some (.alloc type) →
    ∃ start extent, frame.Lies m (.storage id) start extent
  sized : ∀ item start, frame.start? item = some start → ∃ extent, frame.Lies m item start extent
  aligned : ∀ item start extent, frame.Lies m item start extent → (extent.align : Int) ∣ start
  apart : ∀ item start extent other start' extent', frame.Lies m item start extent →
    frame.Lies m other start' extent' → item ≠ other →
    start + extent.size ≤ start' ∨ start' + extent'.size ≤ start
  whole : 16 ∣ frame.size

/-- **Rooms that lie below `%rbp`**, within the frame. -/
def Below (m : Module) (frame : Frame) : Prop :=
  ∀ item start extent, frame.Lies m item start extent →
    -(frame.size : Int) ≤ start ∧ start + extent.size ≤ 0

/-! ### What a function needs room for -/

theorem home_of_alloc {type : Ty} (member : id ∈ m.bodyOf function)
    (alloc : m.opcode? id = some (.alloc type)) : id ∈ homes m function := by
  refine List.mem_append_right _ (List.mem_filter.mpr ⟨member, ?_⟩)
  obtain ⟨held, found, same⟩ := Option.map_eq_some_iff.mp alloc
  rw [Module.producesValue, Module.hasOpcode, alloc, Module.typeOf_alloc found same]
  rfl

/-- The value that a room is needed by. -/
def Item.value : Item → ValueId
  | .home id | .storage id => id

theorem value_of_mem_itemsOf (member : item ∈ itemsOf m id) : item.value = id := by
  rw [itemsOf] at member
  split at member
  · rcases List.mem_pair.mp member with rfl | rfl <;> rfl
  · obtain rfl := List.mem_singleton.mp member
    rfl

theorem nodup_items (linked : m.Linked) (function : ValueId) : (items m function).Nodup := by
  refine List.nodup_flatMap.mpr ⟨fun id _ => ?_, (linked.nodup_homes function).imp ?_⟩
  · rw [itemsOf]
    split
    · exact List.nodup_cons.mpr ⟨by simp, List.nodup_singleton _⟩
    · exact List.nodup_singleton _
  · intro id other different item one two
    exact different ((value_of_mem_itemsOf one).symm.trans (value_of_mem_itemsOf two))

/-! ### All rooms of a frame -/

theorem Packed.separated (packed : Packed m frame rooms)
    (needed : rooms.map Room.item = items m function) (fits : frame.depth < 0x10000000000000000) :
    frame.Separated m function := by
  have sized : ∀ item start, frame.start? item = some start →
      ∃ extent, frame.Lies m item start extent := by
    intro item start found
    obtain ⟨room, member, rfl, _⟩ := packed.exists_room found
    exact ⟨room.extent, found, packed.laid room member⟩
  have lies : ∀ item ∈ items m function, ∃ start extent, frame.Lies m item start extent := by
    intro item member
    obtain ⟨start, found⟩ := packed.exists_start (needed ▸ member)
    exact ⟨start, sized item start found⟩
  constructor
  case homed => exact fun id home => lies _ (home_mem_items home)
  case stored =>
    exact fun id member type alloc => lies _ (storage_mem_items (home_of_alloc member alloc) alloc)
  case sized => exact sized
  case aligned =>
    intro item start extent lies
    obtain ⟨room, member, rfl, rfl, rfl⟩ := packed.exists_room_of_lies lies
    exact dvd_displacement (align_mem_alignments (packed.laid room member))
      (packed.aligned room member) (Nat.lt_of_le_of_lt (packed.inside room member).2 fits)
  case apart =>
    intro item start extent other start' extent' lies lies' different
    obtain ⟨room, member, rfl, rfl, rfl⟩ := packed.exists_room_of_lies lies
    obtain ⟨room', member', rfl, rfl, rfl⟩ := packed.exists_room_of_lies lies'
    have inside := packed.inside room member
    have inside' := packed.inside room' member'
    rcases or_of_pairwise packed.below member member' fun same => different (congrArg _ same) with
      under | under
    · exact displacement_apart inside.1 under (by omega)
    · exact (displacement_apart inside'.1 under (by omega)).symm
  case whole => exact dvd_roundUp _ (by decide)

/-- **Rooms lie below `%rbp` exactly in frames of at most 2^63 bytes.** -/
theorem Packed.below_iff (packed : Packed m frame rooms) (distinct : (rooms.map Room.item).Nodup)
    (fits : frame.depth < 0x10000000000000000) :
    frame.Below m ↔ frame.size ≤ 0x8000000000000000 := by
  have bottom := le_roundUp frame.depth 16
  constructor
  · intro below
    refine roundUp_le_of_dvd (by decide) (Nat.le_of_not_lt fun deep => ?_)
    -- The room at the bottom of the frame is the deepest.
    cases last : rooms.getLast? with
    | none =>
      rw [packed.depth, last] at deep
      cases deep
    | some room =>
      have depth : frame.depth = room.depth := by
        rw [packed.depth, last, Option.map_some, Option.getD_some]
      have member := List.mem_of_getLast? last
      have found := packed.start?_of_mem distinct member
      have under := (below _ _ _ ⟨found, packed.laid room member⟩).2
      rw [displacement_of_lt (depth ▸ deep) (depth ▸ fits)] at under
      omega
  · intro high item start extent lies
    obtain ⟨room, member, rfl, rfl, rfl⟩ := packed.exists_room_of_lies lies
    have inside := packed.inside room member
    rw [size] at high ⊢
    rw [displacement_of_le (by omega)]
    omega

end Frame

deriving instance DecidableEq for Frame

namespace Module

variable {m : Module} {function : ValueId} {frame : Frame}

/-- **What holds of every frame that the address space has room for**: its rooms do not overlap, and
they lie below `%rbp` exactly if the frame has at most 2^63 bytes. -/
theorem Built.frame_separated (built : Built m) (allocated : Frame.of m function = .ok frame)
    (fits : frame.size < 0x10000000000000000) :
    frame.Separated m function ∧ (frame.Below m ↔ frame.size ≤ 0x8000000000000000) := by
  obtain ⟨rooms, packed, needed⟩ := Frame.exists_packed_of allocated
  have depth : frame.depth < 0x10000000000000000 := Nat.lt_of_le_of_lt (le_roundUp _ 16) fits
  have distinct := needed ▸ Frame.nodup_items built.linked function
  exact ⟨packed.separated needed depth, packed.below_iff distinct depth⟩

/-- A function with parameters and variables of several alignments, two of them of no size. -/
def suiteSteps : List Operation :=
  [.addFunction ⟨[.int 1, .int 128, .struct false []], .void, false⟩ "suite",
    .addBlock ⟨0⟩ .finish "entry",
    .insert ⟨some (.finish ⟨4⟩)⟩ (.alloc (.array 3 (.int 24))) "triple",
    .insert ⟨some (.finish ⟨4⟩)⟩ (.alloc (.struct false [])) "nothing",
    .insert ⟨some (.finish ⟨4⟩)⟩ (.ret none) ""]

def suite : Module := builtBy "suite" suiteSteps

def suiteFrame : Frame where
  slots := [(⟨1⟩, -1), (⟨2⟩, -32), (⟨3⟩, -32), (⟨5⟩, -40), (⟨6⟩, -64)]
  storage := [(⟨5⟩, -52), (⟨6⟩, -64)]
  depth := 64

/-- Rooms below `%rbp`, of one alignment after the other. -/
theorem frame_separated_suite : Frame.of suite ⟨0⟩ = .ok suiteFrame ∧
    suiteFrame.Separated suite ⟨0⟩ ∧ suiteFrame.Below suite := by
  have allocated : Frame.of suite ⟨0⟩ = .ok suiteFrame := by decide +kernel
  obtain ⟨separated, below⟩ :=
    (built_builtBy "suite" suiteSteps).frame_separated allocated (by decide)
  exact ⟨allocated, separated, below.mpr (by decide)⟩

def brimFrame : Frame where
  slots := [(⟨4⟩, -8), (⟨5⟩, 16)]
  storage := [(⟨4⟩, 26)]
  depth := 0xfffffffffffffff0

/-- **A frame of less than 2^64 bytes with a room above `%rbp`**, where the old `%rbp` is saved. -/
theorem room_above_brim : Built brim ∧ Frame.of brim ⟨0⟩ = .ok brimFrame ∧
    brimFrame.size < 0x10000000000000000 ∧ brimFrame.slot? ⟨5⟩ = some 16 ∧
    ¬ brimFrame.Below brim := by
  refine ⟨built_builtBy "brim" brimSteps, by decide +kernel, by decide, rfl, fun below => ?_⟩
  have word : brimFrame.Lies brim (.home ⟨5⟩) 16 ⟨8, 8⟩ := ⟨rfl, by decide +kernel⟩
  have high := (below _ _ _ word).2
  omega

end Module

end SsaAmd64
