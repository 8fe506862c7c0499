/-
**Registers of the machine.**

What is read from a register after another has been written, and machines that differ in a few
registers only.

* `Machine.SameExcept`: only some registers, and the flags, are other than before;
* `Machine.load_store_self`, `Machine.load_store_of_apart`: what is read after a number was stored.
-/

import Mathlib.Algebra.Group.Nat.Defs
import SsaAmd64.Proofs.Machine.Execution

namespace SsaAmd64

namespace Asm

/-- A narrow value is read back from a register. -/
theorem Width.setWidth_merge (width : Width) (old : BitVec 64) (value : BitVec width.bits) :
    (width.merge old value).setWidth width.bits = value := by
  have narrow : width.bits ≤ 64 := by
    cases width <;> decide
  have back : (value.setWidth 64).setWidth width.bits = value :=
    (BitVec.setWidth_setWidth_of_le value narrow).trans (BitVec.setWidth_eq value)
  have upper : (old >>> width.bits <<< width.bits).setWidth width.bits =
      BitVec.ofNat width.bits 0 := by
    ext i inside
    simp [inside]
  cases width with
  | quad => exact back
  | long => exact back
  | word => rw [merge, BitVec.setWidth_or, back, upper, BitVec.zero_or]
  | byte => rw [merge, BitVec.setWidth_or, back, upper, BitVec.zero_or]

namespace Machine

variable {machine before middle after : Machine} {register other : Register} {value : BitVec 64}

@[simp] theorem registers_setRegister_self (machine : Machine) (register : Register)
    (value : BitVec 64) : (machine.setRegister register value).registers register = value :=
  if_pos rfl

theorem registers_setRegister_of_ne (different : other ≠ register) (value : BitVec 64) :
    (machine.setRegister register value).registers other = machine.registers other :=
  if_neg different

@[simp] theorem registers_setFlags (machine : Machine) (flags : Option Flags) :
    (machine.setFlags flags).registers = machine.registers := rfl

@[simp] theorem read_full (machine : Machine) (register : Register) :
    machine.read .quad (.full register) = machine.registers register :=
  BitVec.setWidth_eq (machine.registers register)

@[simp] theorem write_full (machine : Machine) (register : Register) (value : BitVec 64) :
    machine.write .quad value (.full register) = some (machine.setRegister register value) :=
  congrArg (fun value => some (machine.setRegister register value)) (BitVec.setWidth_eq value)

/-- A register at its full width takes a result. -/
@[simp] theorem writeResult_full (machine : Machine) (register : Register) (value : BitVec 64)
    (flags : Option Flags) : machine.writeResult .quad value flags (.full register) =
      some ((machine.setRegister register value).setFlags flags) := by
  show (machine.write .quad value (.full register)).map _ = _
  rw [write_full]
  rfl

/-! ### What stays as it was -/

/-- **Only some registers, and the flags, may be other than before.** -/
structure SameExcept (changed : List Register) (before after : Machine) : Prop where
  registers : ∀ register ∉ changed, after.registers register = before.registers register
  memory : after.memory = before.memory

namespace SameExcept

variable {changed : List Register}

theorem refl (changed : List Register) (machine : Machine) : SameExcept changed machine machine :=
  ⟨fun _ _ => rfl, rfl⟩

theorem trans (one : SameExcept changed before middle) (later : SameExcept changed middle after) :
    SameExcept changed before after :=
  ⟨fun register outside =>
      (later.registers register outside).trans (one.registers register outside),
    later.memory.trans one.memory⟩

theorem mono {more : List Register} (same : SameExcept changed before after)
    (subset : changed ⊆ more) : SameExcept more before after :=
  ⟨fun register outside => same.registers register fun inside => outside (subset inside),
    same.memory⟩

theorem setRegister (same : SameExcept changed before after) (member : register ∈ changed)
    (value : BitVec 64) : SameExcept changed before (after.setRegister register value) := by
  refine ⟨fun other outside => ?_, same.memory⟩
  rw [registers_setRegister_of_ne, same.registers other outside]
  rintro rfl
  exact outside member

theorem setFlags (same : SameExcept changed before after) (flags : Option Flags) :
    SameExcept changed before (after.setFlags flags) :=
  ⟨same.registers, same.memory⟩

end SameExcept

end Machine

/-! ### Numbers in memory -/

namespace Machine

variable {machine : Machine} {address place : BitVec 64} {count size : Nat}

/-- A number is read back as far as the bytes reach. -/
theorem load_store_self (machine : Machine) (address : BitVec 64) (value : Nat)
    (short : count ≤ 0x10000000000000000) :
    (machine.store address count value).load address count = value % 2 ^ (8 * count) := by
  have back : (machine.memory.write address (Bytes.ofNat count value)).bytes address
      (Bytes.ofNat count value).length = Bytes.ofNat count value :=
    Memory.bytes_write_self (by rwa [Bytes.length_ofNat])
  rw [Bytes.length_ofNat] at back
  exact (congrArg Bytes.toNat back).trans (Bytes.toNat_ofNat count value)

theorem load_store_of_apart (value : Nat) (apart : Apart address count place size) :
    (machine.store address count value).load place size = machine.load place size := by
  refine congrArg Bytes.toNat (Memory.bytes_write_of_apart ?_)
  rwa [Bytes.length_ofNat]

theorem toNat_bytes_lt (bytes : List UInt8) : Bytes.toNat bytes < 2 ^ (8 * bytes.length) := by
  induction bytes with
  | nil => decide
  | cons byte bytes ih =>
    have range : 2 ^ (8 * (bytes.length + 1)) = 256 * 2 ^ (8 * bytes.length) := by
      rw [Nat.mul_succ, Nat.pow_add, Nat.mul_comm]
    have small := byte.toNat_lt
    rw [Bytes.toNat, List.length_cons, range]
    omega

theorem load_congr {other : Machine} (same : other.memory = machine.memory)
    (address : BitVec 64) (count : Nat) : other.load address count = machine.load address count := by
  rw [load, same, load]

end Machine

theorem executeAll_singleton (line : Line) (machine : Machine) :
    executeAll [line] machine = execute line machine := by
  rw [executeAll_cons]
  cases execute line machine <;> rfl

end Asm

end SsaAmd64
