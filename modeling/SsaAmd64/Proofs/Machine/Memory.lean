/-
**Memory of the machine.**

One byte for each address of 64 bits. Addresses wrap around, so that two ranges are apart when no
address of the one is an address of the other.

* `Memory.bytes`, `Memory.write`: reading and writing bytes one after the other;
* `Memory.bytes_write_self`, `Memory.bytes_write_of_apart`: what is read after a write;
* `apart_of_le`: ranges at displacements from one base that do not overlap are apart.
-/

import SsaAmd64.Bytes

namespace SsaAmd64

namespace Asm

/-- The contents of the address space. -/
abbrev Memory := BitVec 64 → UInt8

/-- The address at a displacement from a base. -/
def offset (base : BitVec 64) (displacement : Int) : BitVec 64 :=
  base + BitVec.ofInt 64 displacement

/-- No address of the one range is an address of the other. -/
def Apart (first : BitVec 64) (count : Nat) (second : BitVec 64) (count' : Nat) : Prop :=
  ∀ i < count, ∀ j < count', first + BitVec.ofNat 64 i ≠ second + BitVec.ofNat 64 j

namespace Memory

/-- The bytes from an address on. -/
def bytes (memory : Memory) (address : BitVec 64) : (count : Nat) → List UInt8
  | 0 => []
  | count + 1 => memory address :: memory.bytes (address + 1) count

/-- Puts bytes at an address and those behind it. -/
def write (memory : Memory) (address : BitVec 64) : (content : List UInt8) → Memory
  | [] => memory
  | byte :: content =>
    write (fun other => if other = address then byte else memory other) (address + 1) content

variable {memory : Memory} {address other : BitVec 64} {content : List UInt8} {count : Nat}

@[simp] theorem length_bytes (memory : Memory) (address : BitVec 64) (count : Nat) :
    (memory.bytes address count).length = count := by
  induction count generalizing address with
  | zero => rfl
  | succ count ih => simp [bytes, ih]

theorem add_ofNat_succ (address : BitVec 64) (index : Nat) :
    address + 1 + BitVec.ofNat 64 index = address + BitVec.ofNat 64 (index + 1) := by
  rw [BitVec.ofNat_add, BitVec.add_assoc, BitVec.add_comm (1 : BitVec 64)]
  rfl

/-- Bytes are read one by one. -/
theorem bytes_congr {memory' : Memory}
    (same : ∀ i < count, memory' (address + BitVec.ofNat 64 i) =
      memory (address + BitVec.ofNat 64 i)) :
    memory'.bytes address count = memory.bytes address count := by
  induction count generalizing address with
  | zero => rfl
  | succ count ih =>
    have first := same 0 (Nat.zero_lt_succ count)
    rw [BitVec.add_zero] at first
    rw [bytes, bytes, first, ih]
    intro i less
    rw [add_ofNat_succ]
    exact same (i + 1) (Nat.succ_lt_succ less)

/-- Bytes within bytes that are the same are the same. -/
theorem bytes_inside {memory' : Memory} {place size : Nat}
    (same : memory'.bytes address count = memory.bytes address count) (inside : place + size ≤ count) :
    memory'.bytes (address + BitVec.ofNat 64 place) size =
      memory.bytes (address + BitVec.ofNat 64 place) size := by
  have each : ∀ i < count, memory' (address + BitVec.ofNat 64 i) =
      memory (address + BitVec.ofNat 64 i) := by
    clear inside
    induction count generalizing address with
    | zero => exact fun i less => absurd less (Nat.not_lt_zero i)
    | succ count ih =>
      obtain ⟨first, later⟩ := List.cons.inj same
      intro i less
      cases i with
      | zero => rwa [BitVec.add_zero]
      | succ i =>
        rw [← add_ofNat_succ]
        exact ih later i (Nat.lt_of_succ_lt_succ less)
  refine bytes_congr fun i less => ?_
  rw [BitVec.add_assoc, ← BitVec.ofNat_add]
  exact each (place + i) (by omega)

theorem write_of_ne
    (outside : ∀ i < content.length, address + BitVec.ofNat 64 i ≠ other) :
    memory.write address content other = memory other := by
  induction content generalizing memory address with
  | nil => rfl
  | cons byte content ih =>
    have first := outside 0 (Nat.zero_lt_succ _)
    rw [BitVec.add_zero] at first
    rw [write, ih, if_neg (Ne.symm first)]
    intro i less
    rw [add_ofNat_succ]
    exact outside (i + 1) (Nat.succ_lt_succ less)

/-- **What has been written is read back.** -/
theorem bytes_write_self (short : content.length ≤ 0x10000000000000000) :
    (memory.write address content).bytes address content.length = content := by
  induction content generalizing memory address with
  | nil => rfl
  | cons byte content ih =>
    rw [List.length_cons] at short
    have kept : (memory.write address (byte :: content)) address = byte := by
      rw [write, write_of_ne, if_pos rfl]
      intro i less same
      rw [add_ofNat_succ] at same
      have zero : BitVec.ofNat 64 (i + 1) = 0#64 := by simpa using same
      have value := congrArg BitVec.toNat zero
      rw [BitVec.toNat_ofNat, Nat.mod_eq_of_lt (by omega)] at value
      simp at value
    rw [List.length_cons, bytes, kept, write, ih (by omega)]

/-- **A write does not reach what is apart from it.** -/
theorem bytes_write_of_apart (apart : Apart address content.length other count) :
    (memory.write address content).bytes other count = memory.bytes other count :=
  bytes_congr fun j less => write_of_ne fun i inside => apart i inside j less

end Memory

theorem Apart.symm {first second : BitVec 64} {count count' : Nat}
    (apart : Apart first count second count') : Apart second count' first count :=
  fun i less j less' same => apart j less' i less same.symm

theorem offset_add_ofNat (base : BitVec 64) (displacement : Int) (index : Nat) :
    offset base displacement + BitVec.ofNat 64 index = offset base (displacement + index) := by
  rw [offset, offset, BitVec.ofInt_add, BitVec.add_assoc, BitVec.ofInt_natCast]

theorem offset_offset (base : BitVec 64) (first second : Int) :
    offset (offset base first) second = offset base (first + second) := by
  rw [offset, offset, offset, BitVec.ofInt_add, BitVec.add_assoc]

theorem offset_zero (base : BitVec 64) : offset base 0 = base := by
  simp [offset]

theorem ofInt_signed64 (value : Int) : BitVec.ofInt 64 (signed64 value) = BitVec.ofInt 64 value := by
  refine BitVec.eq_of_toInt_eq ?_
  rw [BitVec.toInt_ofInt, BitVec.toInt_ofInt]
  exact Int.bmod_bmod

/-- Addresses wrap around as words do. -/
theorem offset_signed64 (base : BitVec 64) (displacement : Int) :
    offset base (signed64 displacement) = offset base displacement := by
  rw [offset, ofInt_signed64, offset]

theorem offset_neg_signed64 (base : BitVec 64) (displacement : Int) :
    offset base (-signed64 displacement) = offset base (-displacement) := by
  rw [offset, BitVec.ofInt_neg, ofInt_signed64, ← BitVec.ofInt_neg, offset]

/-- Displacements that are not far from one another give different addresses. -/
theorem offset_ne {base : BitVec 64} {first second : Int} (less : first < second)
    (near : second - first < 0x10000000000000000) : offset base first ≠ offset base second := by
  intro same
  have equal : BitVec.ofInt 64 first = BitVec.ofInt 64 second := by
    simpa [offset] using same
  have values := congrArg BitVec.toNat equal
  rw [BitVec.toNat_ofInt, BitVec.toNat_ofInt] at values
  omega

/-- **Ranges at displacements from one base are apart when one ends before the other starts.** -/
theorem apart_of_le {base : BitVec 64} {first second : Int} {count count' : Nat}
    (before : first + count ≤ second) (near : second + count' - first ≤ 0x10000000000000000) :
    Apart (offset base first) count (offset base second) count' := by
  intro i less j less'
  rw [offset_add_ofNat, offset_add_ofNat]
  exact offset_ne (by omega) (by omega)

end Asm

end SsaAmd64
