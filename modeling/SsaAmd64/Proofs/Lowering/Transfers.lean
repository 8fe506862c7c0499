/-
**Copies of memory and stores of constants are exact.**

Whatever their size is cut into, they put all their bytes where they belong and no byte elsewhere.
They are made of moves alone, so that of everything else only `%rax` changes, which the bytes go
through.

* `Asm.Machine.Puts`: bytes have been put at an address, and nothing else has been done;
* `Lowering.transfers_exact`: this is what the code of a copy and of a constant does.
-/

import SsaAmd64.Proofs.Lowering.Assignment
import SsaAmd64.Proofs.Lowering.Copying

namespace SsaAmd64

namespace Asm

variable {machine before after next : Machine} {lines : List Line} {line : Line}
variable {first second : BitVec 64} {size : Nat}

/-! ### Moves -/

/-- Whether a line moves a value, and computes nothing. -/
def Line.isMove : Line → Bool
  | .mov .. | .movabs .. => true
  | _ => false

theorem flags_of_move (moves : line.isMove = true) (ran : execute line machine = some next) :
    next.flags = machine.flags := by
  cases line with
  | mov width source target =>
    cases target <;> cases ran <;> rfl
  | movabs value target =>
    cases ran
    rfl
  | _ => cases moves

/-- Moves keep the flags. -/
theorem flags_of_moves (moves : ∀ line ∈ lines, line.isMove = true)
    (ran : executeAll lines machine = some next) : next.flags = machine.flags := by
  induction lines generalizing machine with
  | nil =>
    cases ran
    rfl
  | cons line lines ih =>
    obtain ⟨here, later⟩ := List.forall_mem_cons.mp moves
    obtain ⟨between, done, ran⟩ := Option.bind_eq_some_iff.mp ran
    exact (ih later ran).trans (flags_of_move here done)

/-! ### Bytes at an address -/

/-- **Bytes have been put at an address, and nothing else has been done**: they are read back there
if the address space holds them, no other byte of memory has changed, and no register but `%rax`. -/
structure Machine.Puts (before : Machine) (address : BitVec 64) (content : List UInt8)
    (after : Machine) : Prop where
  bytes : content.length ≤ 0x10000000000000000 →
    after.memory.bytes address content.length = content
  elsewhere : ∀ other, (∀ i < content.length, address + BitVec.ofNat 64 i ≠ other) →
    after.memory other = before.memory other
  registers : ∀ register, register ≠ .rax → after.registers register = before.registers register
  flags : after.flags = before.flags
  symbols : after.symbols = before.symbols

theorem Machine.Puts.of_wrote {address : BitVec 64} {content : List UInt8}
    (wrote : before.Wrote [.rax] [⟨address, content⟩] after)
    (flags : after.flags = before.flags) : before.Puts address content after := by
  have memory : after.memory = before.memory.write address content := wrote.memory
  refine ⟨fun short => ?_, fun other outside => ?_, fun register other => ?_, flags, wrote.symbols⟩
  · rw [memory, Memory.bytes_write_self short]
  · rw [memory, Memory.write_of_ne outside]
  · exact wrote.registers register (by simpa using other)

/-- Ranges that are apart leave room for one another. -/
theorem Apart.size_le (apart : Apart first size second size) : size ≤ 0x10000000000000000 := by
  by_contra long
  have near := (second - first).isLt
  refine apart (second - first).toNat (by omega) 0 (by omega) ?_
  rw [BitVec.ofNat_toNat, BitVec.setWidth_eq, BitVec.add_zero, BitVec.add_comm,
    BitVec.sub_add_cancel]

end Asm

namespace Lowering

open Asm

variable {base origin : Register} {start place : Int} {size : Nat} {bytes : List UInt8}

theorem isMove_copyMemory : ∀ line ∈ copyMemory origin place base start size,
    line.isMove = true := by
  intro line member
  obtain ⟨piece, _, inside⟩ := List.mem_flatMap.mp member
  rcases List.mem_pair.mp inside with rfl | rfl <;> rfl

theorem isMove_storeBytes : ∀ line ∈ storeBytes bytes base start, line.isMove = true := by
  intro line member
  obtain ⟨piece, _, inside⟩ := List.mem_flatMap.mp member
  dsimp only [storePiece] at inside
  split at inside
  · rw [List.mem_singleton.mp inside]
    rfl
  · rcases List.mem_pair.mp inside with rfl | rfl <;> rfl

/-- **Copies of memory and stores of constants are exact.** A copy of any size between ranges that
are apart leaves the same bytes in both, those of the source; the bytes of a constant are all put at
their address. No other byte of memory changes, and no register but `%rax`. -/
theorem transfers_exact (machine : Machine) (kept : base ≠ .rax) (kept' : origin ≠ .rax) :
    (∀ place start size,
      Apart (offset (machine.registers base) start) size
        (offset (machine.registers origin) place) size →
      ∃ next, executeAll (copyMemory origin place base start size) machine = some next ∧
        next.memory.bytes (offset (machine.registers base) start) size =
          next.memory.bytes (offset (machine.registers origin) place) size ∧
        machine.Puts (offset (machine.registers base) start)
          (machine.memory.bytes (offset (machine.registers origin) place) size) next) ∧
    ∀ bytes start,
      ∃ next, executeAll (storeBytes bytes base start) machine = some next ∧
        machine.Puts (offset (machine.registers base) start) bytes next := by
  constructor
  · intro place start size apart
    obtain ⟨next, ran, wrote⟩ := wrote_copyMemory machine kept kept' apart
    have puts := Machine.Puts.of_wrote wrote (flags_of_moves isMove_copyMemory ran)
    refine ⟨next, ran, ?_, puts⟩
    have copied := puts.bytes
    have source : next.memory.bytes (offset (machine.registers origin) place) size =
        machine.memory.bytes (offset (machine.registers origin) place) size := by
      refine wrote.bytes_eq (List.forall_mem_singleton.mpr ?_)
      rwa [Write.Misses, Memory.length_bytes]
    rw [Memory.length_bytes] at copied
    rw [copied apart.size_le, source]
  · intro bytes start
    obtain ⟨next, ran, wrote⟩ := wrote_storeBytes machine bytes kept start
    exact ⟨next, ran, .of_wrote wrote (flags_of_moves isMove_storeBytes ran)⟩

end Lowering

namespace Module

open Asm

/-- Fifteen bytes are moved in four pieces. The first piece of the constant takes more than 32 bits,
and the next two are stored as negative numbers. -/
def fifteen : List UInt8 :=
  [1, 2, 3, 4, 5, 6, 7, 8, 0xff, 0xff, 0xff, 0xff, 0, 0x80, 0x7f]

theorem transfers_exact_standing : Register.rsp ≠ .rax ∧ Register.rbp ≠ .rax ∧
    Apart (offset (standing.registers .rsp) 0) 15 (offset (standing.registers .rbp) (-16)) 15 ∧
    (∃ next, executeAll (Lowering.copyMemory .rbp (-16) .rsp 0 15) standing = some next ∧
      next.memory.bytes 0xfe0 15 = next.memory.bytes 0xff0 15 ∧
      standing.Puts 0xfe0 [0xf0, 0xf1, 0xf2, 0xf3, 0xf4, 0xf5, 0xf6, 0xf7, 0xf8, 0xf9, 0xfa, 0xfb,
        0xfc, 0xfd, 0xfe] next) ∧
    ∃ next, executeAll (Lowering.storeBytes fifteen .rsp 0) standing = some next ∧
      next.memory.bytes 0xfe0 15 = fifteen ∧ next.memory 0xfef = 0xef := by
  have kept : Register.rsp ≠ .rax := by decide
  have kept' : Register.rbp ≠ .rax := by decide
  have target : offset (standing.registers .rsp) 0 = 0xfe0 := by decide
  have source : offset (standing.registers .rbp) (-16) = 0xff0 := by decide
  have apart : Apart (offset (standing.registers .rsp) 0) 15
      (offset (standing.registers .rbp) (-16)) 15 := by
    rw [target, source]
    show Apart (offset 0 0xfe0) 15 (offset 0 0xff0) 15
    exact apart_of_le (by decide) (by decide)
  obtain ⟨copies, stores⟩ := Lowering.transfers_exact standing kept kept'
  refine ⟨kept, kept', apart, ?_, ?_⟩
  · obtain ⟨next, ran, same, puts⟩ := copies (-16) 0 15 apart
    rw [target, source] at same puts
    exact ⟨next, ran, same, puts⟩
  · obtain ⟨next, ran, puts⟩ := stores fifteen 0
    rw [target] at puts
    refine ⟨next, ran, puts.bytes (by decide), ?_⟩
    exact (puts.elsewhere 0xfef (by decide)).trans (by decide)

end Module

end SsaAmd64
