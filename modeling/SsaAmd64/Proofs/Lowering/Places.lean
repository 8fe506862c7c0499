/-
**Where values are.**

Every value of a function has its home slot, for its size and apart from all others, between the
bottom of the frame and `%rbp`. A frame that fits the address space does not meet what lies below it.

* `Lowering.Placed`: a value, the displacement of its slot and its size;
* `Lowering.Placed.apart`, `Lowering.Placed.above`: slots and what is apart from them;
* `Lowering.AtFrame`: a machine in the frame of a function;
* `Lowering.Area`: an area of the stack below the frame;
* `Lowering.Reads.copies`: what a value can be copied to;
* `Lowering.Reads.bytes_eq`: writes elsewhere do not change a value.
-/

import SsaAmd64.Proofs.Lowering.Copying
import SsaAmd64.Proofs.Lowering.Prepared

namespace SsaAmd64

open Asm

namespace Lowering

variable {lowering : Lowering} {id other value : ValueId} {start start' : Int}
variable {size size' room : Nat} {machine after : Machine} {source : Source}

/-- **A value, the displacement of its home slot and its size.** -/
structure Placed (lowering : Lowering) (id : ValueId) (start : Int) (size : Nat) : Prop where
  slot : lowering.frame.slot? id = some start
  sized : (lowering.subject.typeOf id).size = .ok size

/-- **A machine in the frame of a function**: the stack pointer is at its bottom, and the address
space holds the frame and a number of bytes below it. -/
structure AtFrame (lowering : Lowering) (machine : Machine) (room : Nat) : Prop where
  bottom : machine.registers .rsp =
    offset (machine.registers .rbp) (-(lowering.frame.size : Int))
  fits : lowering.frame.size + room ≤ 0x10000000000000000

namespace Placed

theorem slot_eq (placed : lowering.Placed id start size) : lowering.slot id = .ok start := by
  rw [Lowering.slot, placed.slot]

theorem sizeOf_eq (placed : lowering.Placed id start size) : lowering.sizeOf id = .ok size := by
  rw [Lowering.sizeOf, Ty.sizeInCode, placed.sized]
  rfl

theorem size_eq (placed : lowering.Placed id start size)
    (same : (lowering.subject.typeOf id).size = .ok size') : size = size' :=
  Except.ok.inj (placed.sized.symm.trans same)

/-- The slot of a value lies at its depth below `%rbp`. -/
theorem exists_depth (placed : lowering.Placed id start size)
    {depths : List (ValueId × Nat)}
    (stacked : Frame.Stacked lowering.subject lowering.frame depths) :
    ∃ depth, (id, depth) ∈ depths ∧ (∀ base, offset base start = offset base (-(depth : Int))) ∧
      Frame.bytesOf lowering.subject id = size ∧ size ≤ depth ∧ depth ≤ lowering.frame.size := by
  obtain ⟨depth, member, rfl⟩ := stacked.slot?_eq_some placed.slot
  have bytes : Frame.bytesOf lowering.subject id = size := by
    rw [Frame.bytesOf, placed.sized]
    rfl
  have inside := stacked.inside _ member
  have rounded : lowering.frame.depth ≤ lowering.frame.size := le_roundUp _ _
  rw [bytes] at inside
  exact ⟨depth, member, fun base => offset_signed64 base _, bytes, inside.1,
    Nat.le_trans inside.2 rounded⟩

/-- **Slots of different values are apart.** -/
theorem apart (prepared : lowering.Prepared) (one : lowering.Placed id start size)
    (two : lowering.Placed other start' size') (different : id ≠ other)
    (fits : lowering.frame.size ≤ 0x10000000000000000) (base : BitVec 64) :
    Apart (offset base start) size (offset base start') size' := by
  obtain ⟨depths, stacked, _⟩ := Frame.exists_stacked_of prepared.framed
  obtain ⟨first, inside, equal, bytes, high, low⟩ := one.exists_depth stacked
  obtain ⟨second, inside', equal', bytes', high', low'⟩ := two.exists_depth stacked
  rw [equal, equal']
  rcases stacked.apart inside inside' different with below | below
  · dsimp only at below
    exact (apart_of_le (by omega) (by omega)).symm
  · dsimp only at below
    exact apart_of_le (by omega) (by omega)

/-- **Slots are apart from what lies below the frame.** -/
theorem above (prepared : lowering.Prepared) (placed : lowering.Placed id start size)
    {place count : Nat} (inside : place + count ≤ room)
    (fits : lowering.frame.size + room ≤ 0x10000000000000000) (base : BitVec 64) :
    Apart (offset base (-(lowering.frame.size : Int) - room + place)) count
      (offset base start) size := by
  obtain ⟨depths, stacked, _⟩ := Frame.exists_stacked_of prepared.framed
  obtain ⟨depth, _, equal, _, high, low⟩ := placed.exists_depth stacked
  rw [equal]
  exact apart_of_le (by omega) (by omega)

/-- What is written into a slot stays within the frame. -/
theorem below (prepared : lowering.Prepared) (placed : lowering.Placed id start size)
    {content : List UInt8} (length : content.length = size) (base : BitVec 64) :
    Write.Below ⟨offset base start, content⟩ base lowering.frame.size := by
  obtain ⟨depths, stacked, _⟩ := Frame.exists_stacked_of prepared.framed
  obtain ⟨depth, _, equal, _, high, low⟩ := placed.exists_depth stacked
  refine ⟨lowering.frame.size - depth, ?_, ?_⟩
  · dsimp only
    rw [equal]
    congr 1
    omega
  · dsimp only
    omega

theorem le_size (prepared : lowering.Prepared) (placed : lowering.Placed id start size) :
    size ≤ lowering.frame.size := by
  obtain ⟨depths, stacked, _⟩ := Frame.exists_stacked_of prepared.framed
  obtain ⟨depth, _, _, _, high, low⟩ := placed.exists_depth stacked
  omega

end Placed

theorem Prepared.exists_placed (prepared : lowering.Prepared)
    (home : id ∈ Frame.homes lowering.subject lowering.function) :
    ∃ start size, lowering.Placed id start size := by
  obtain ⟨start, size, slot, sized⟩ := prepared.exists_slot home
  exact ⟨start, size, slot, sized⟩

/-- **An area of the stack below the frame**, of which the bytes up to an end are in use. -/
structure Area (lowering : Lowering) (base bottom : BitVec 64) (reserved finish : Nat) : Prop where
  below : bottom = offset base (-(lowering.frame.size : Int) - reserved)
  enough : finish ≤ reserved
  fits : lowering.frame.size + reserved ≤ 0x10000000000000000

theorem Area.apart {base bottom : BitVec 64} {reserved finish : Nat}
    (area : lowering.Area base bottom reserved finish) (prepared : lowering.Prepared)
    (placed : lowering.Placed id start size) {place count : Nat} (inside : place + count ≤ finish) :
    Apart (offset bottom place) count (offset base start) size := by
  rw [area.below, offset_offset]
  exact placed.above prepared (Nat.le_trans inside area.enough) area.fits base

/-! ### Values that are read -/

/-- The bytes of a value of a size. One that is read from nowhere has none. -/
def bytesOf (lowering : Lowering) (machine : Machine) (id : ValueId) (size : Nat) : List UInt8 :=
  (lowering.source id).toOption.elim [] fun source => source.bytes machine size

theorem bytesOf_eq (known : lowering.source id = .ok source) (machine : Machine) (size : Nat) :
    lowering.bytesOf machine id size = source.bytes machine size := by
  rw [bytesOf, known]
  rfl

/-- **What a value of a type with a layout can be copied to**: anything that is apart from its
slot, if it has one. -/
theorem Reads.copies (reads : lowering.Reads value source)
    (sized : (lowering.subject.typeOf value).size = .ok size) {address : BitVec 64}
    (apart : ∀ start, lowering.Placed value start size →
      Apart address size (offset (machine.registers .rbp) start) size) :
    source.Copies machine size address := by
  cases reads with
  | literal found => trivial
  | global found nonempty =>
    rw [Module.typeOf_global found] at sized
    exact (Except.ok.inj sized).symm
  | function found nonempty =>
    rw [Module.typeOf_function found] at sized
    cases sized
  | slot home slot sized' => exact apart _ ⟨slot, sized⟩

/-- **Writes that miss the slot of a value do not change it.** -/
theorem Reads.bytes_eq {scratch : List Register} {writes : List Write}
    (reads : lowering.Reads value source)
    (sized : (lowering.subject.typeOf value).size = .ok size)
    (wrote : machine.Wrote scratch writes after) (kept : .rbp ∉ scratch)
    (missed : ∀ start, lowering.Placed value start size →
      ∀ write ∈ writes, write.Misses (offset (machine.registers .rbp) start) size) :
    source.bytes after size = source.bytes machine size := by
  cases reads with
  | literal found => rfl
  | global found nonempty | function found nonempty =>
    rw [Source.bytes, Source.bytes, wrote.symbols]
  | slot home slot sized' =>
    rw [Source.bytes, Source.bytes, wrote.registers .rbp kept]
    exact wrote.bytes_eq (missed _ ⟨slot, sized⟩)

end Lowering

end SsaAmd64
