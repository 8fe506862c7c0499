/-
**Code that writes memory.**

Lines that move values write bytes at some addresses and use a few scratch registers; nothing else
changes. Parts of which none reads what another writes can be run one after the other, and the bytes
that each of them writes are found afterwards.

* `Memory.writeAll`: several writes, one after the other;
* `Memory.bytes_writeAll`: what has been written is read back, if no two writes meet;
* `Machine.Wrote`: what lines have written;
* `Machine.Wrote.of_each`: parts that run one after the other;
* `wrote_load`, `wrote_lea`, `wrote_movabs`, `wrote_store`: words in registers and in memory;
* `wrote_sub`, `wrote_sum`, `wrote_add`, `wrote_negate`: a register is added to or negated, and the
  stack pointer moved;
* `wrote_call`, `wrote_pushes`: words are put on the stack.
-/

import Mathlib.Data.List.Forall2
import SsaAmd64.Proofs.Machine.Registers

namespace SsaAmd64

/-- A number of some bytes has these as its image. -/
theorem Bytes.ofNat_toNat (bytes : List UInt8) :
    Bytes.ofNat bytes.length (Bytes.toNat bytes) = bytes := by
  induction bytes with
  | nil => rfl
  | cons byte bytes ih =>
    have small := byte.toNat_lt
    have first : UInt8.ofNat (byte.toNat + 256 * Bytes.toNat bytes) = byte := by
      refine UInt8.toNat_inj.mp ?_
      rw [UInt8.toNat_ofNat']
      omega
    have rest : (byte.toNat + 256 * Bytes.toNat bytes) / 256 = Bytes.toNat bytes := by omega
    rw [List.length_cons, Bytes.toNat, Bytes.ofNat, first, rest, ih]

/-- The bytes at an address are the image of the number that is loaded from there. -/
theorem Asm.Machine.bytes_eq_ofNat (machine : Machine) (address : BitVec 64) (count : Nat) :
    machine.memory.bytes address count = Bytes.ofNat count (machine.load address count) := by
  have back := Bytes.ofNat_toNat (machine.memory.bytes address count)
  rw [Memory.length_bytes] at back
  exact back.symm

/-- Only the low bytes of a number are in an image. -/
theorem Bytes.ofNat_mod (count value : Nat) :
    Bytes.ofNat count (value % patternCount (8 * count)) = Bytes.ofNat count value := by
  have back := Bytes.ofNat_toNat (Bytes.ofNat count value)
  rwa [Bytes.toNat_ofNat, Bytes.length_ofNat] at back

namespace Asm

/-! ### Writes -/

/-- Bytes put at an address and those behind it. -/
structure Write where
  address : BitVec 64
  content : List UInt8

/-- Whether a write does not reach a range. -/
def Write.Misses (write : Write) (address : BitVec 64) (count : Nat) : Prop :=
  Apart write.address write.content.length address count

/-- Whether a write stays within a number of bytes below an address. -/
def Write.Below (write : Write) (top : BitVec 64) (depth : Nat) : Prop :=
  ∃ place : Nat, write.address = offset top (-(depth : Int) + place) ∧
    place + write.content.length ≤ depth

namespace Write.Below

variable {write : Write} {top : BitVec 64} {depth : Nat}

/-- What is written below an address does not reach what lies above it. -/
theorem misses (below : write.Below top depth) {start count : Nat}
    (near : start + count + depth ≤ 0x10000000000000000) :
    write.Misses (offset top start) count := by
  obtain ⟨place, address, inside⟩ := below
  rw [Write.Misses, address]
  exact apart_of_le (by omega) (by omega)

/-- The same, seen from an address above. -/
theorem raise {gap : Nat} (below : write.Below (offset top (-(gap : Int))) depth) :
    write.Below top (gap + depth) := by
  obtain ⟨place, address, inside⟩ := below
  refine ⟨place, ?_, by omega⟩
  rw [address, offset_offset]
  congr 1
  omega

theorem mono (below : write.Below top depth) {deeper : Nat} (more : depth ≤ deeper) :
    write.Below top deeper := by
  obtain ⟨place, address, inside⟩ := below
  refine ⟨deeper - depth + place, ?_, by omega⟩
  rw [address]
  congr 1
  omega

end Write.Below

namespace Memory

variable {memory : Memory} {address : BitVec 64} {count : Nat} {content : List UInt8}
variable {writes : List Write}

theorem bytes_add (memory : Memory) (address : BitVec 64) (first second : Nat) :
    memory.bytes address (first + second) =
      memory.bytes address first ++ memory.bytes (address + BitVec.ofNat 64 first) second := by
  induction first generalizing address with
  | zero => rw [Nat.zero_add, bytes, List.nil_append, BitVec.add_zero]
  | succ first ih =>
    rw [Nat.succ_add, bytes, bytes, ih, add_ofNat_succ]
    rfl

theorem write_append (memory : Memory) (address : BitVec 64) (first second : List UInt8) :
    memory.write address (first ++ second) =
      (memory.write address first).write (address + BitVec.ofNat 64 first.length) second := by
  induction first generalizing memory address with
  | nil => rw [List.nil_append, List.length_nil, BitVec.add_zero, write]
  | cons byte first ih => rw [List.cons_append, write, ih, add_ofNat_succ, List.length_cons, write]

/-- Several writes, one after the other. -/
def writeAll (memory : Memory) (writes : List Write) : Memory :=
  writes.foldl (fun memory write => memory.write write.address write.content) memory

@[simp] theorem writeAll_nil (memory : Memory) : memory.writeAll [] = memory := rfl

@[simp] theorem writeAll_cons (memory : Memory) (write : Write) (writes : List Write) :
    memory.writeAll (write :: writes) =
      (memory.write write.address write.content).writeAll writes := rfl

theorem writeAll_append (memory : Memory) (first second : List Write) :
    memory.writeAll (first ++ second) = (memory.writeAll first).writeAll second :=
  List.foldl_append

/-- **Writes do not change what they miss.** -/
theorem bytes_writeAll_of_misses (missed : ∀ write ∈ writes, write.Misses address count) :
    (memory.writeAll writes).bytes address count = memory.bytes address count := by
  induction writes generalizing memory with
  | nil => rfl
  | cons write writes ih =>
    obtain ⟨first, others⟩ := List.forall_mem_cons.mp missed
    rw [writeAll_cons, ih others, bytes_write_of_apart first]

/-- A byte that writes miss. -/
theorem writeAll_of_misses (missed : ∀ write ∈ writes, write.Misses address 1) :
    memory.writeAll writes address = memory address :=
  List.cons.inj (bytes_writeAll_of_misses missed) |>.1

/-- **What has been written is read back**, if no two writes meet. -/
theorem bytes_writeAll (memory : Memory) {write : Write} (member : write ∈ writes)
    (apart : writes.Pairwise fun first second =>
      Apart first.address first.content.length second.address second.content.length)
    (short : write.content.length ≤ 0x10000000000000000) :
    (memory.writeAll writes).bytes write.address write.content.length = write.content := by
  induction writes generalizing memory with
  | nil => cases member
  | cons first others ih =>
    obtain ⟨here, later⟩ := List.pairwise_cons.mp apart
    rw [writeAll_cons]
    rcases List.mem_cons.mp member with rfl | inside
    · rw [bytes_writeAll_of_misses fun other among => (here other among).symm,
        bytes_write_self short]
    · exact ih _ inside later

end Memory

/-! ### Machines that have written -/

namespace Machine

/-- **Some bytes have been written**; of the registers only scratch registers may be other than
before, and flags are not kept. -/
structure Wrote (scratch : List Register) (before : Machine) (writes : List Write)
    (after : Machine) : Prop where
  registers : ∀ register ∉ scratch, after.registers register = before.registers register
  symbols : after.symbols = before.symbols
  memory : after.memory = before.memory.writeAll writes

namespace Wrote

variable {scratch more : List Register} {before middle after machine : Machine}
variable {writes later : List Write}

theorem refl (scratch : List Register) (machine : Machine) : Wrote scratch machine [] machine :=
  ⟨fun _ _ => rfl, rfl, rfl⟩

theorem trans (one : Wrote scratch before writes middle) (other : Wrote scratch middle later after) :
    Wrote scratch before (writes ++ later) after := by
  refine ⟨fun register outside => ?_, other.symbols.trans one.symbols, ?_⟩
  · rw [other.registers register outside, one.registers register outside]
  · rw [other.memory, one.memory, Memory.writeAll_append]

theorem mono (wrote : Wrote scratch before writes after) (subset : scratch ⊆ more) :
    Wrote more before writes after :=
  ⟨fun register outside => wrote.registers register fun inside => outside (subset inside),
    wrote.symbols, wrote.memory⟩

theorem setRegister {register : Register} (wrote : Wrote scratch before writes after)
    (member : register ∈ scratch) (value : BitVec 64) :
    Wrote scratch before writes (after.setRegister register value) := by
  refine ⟨fun other outside => ?_, wrote.symbols, wrote.memory⟩
  rw [registers_setRegister_of_ne, wrote.registers other outside]
  rintro rfl
  exact outside member

theorem setFlags (wrote : Wrote scratch before writes after) (flags : Option Flags) :
    Wrote scratch before writes (after.setFlags flags) :=
  ⟨wrote.registers, wrote.symbols, wrote.memory⟩

theorem sameExcept (wrote : Wrote scratch before [] after) : SameExcept scratch before after :=
  ⟨wrote.registers, wrote.memory⟩

/-- What is missed by the writes is as it was. -/
theorem bytes_eq {address : BitVec 64} {count : Nat} (wrote : Wrote scratch before writes after)
    (missed : ∀ write ∈ writes, write.Misses address count) :
    after.memory.bytes address count = before.memory.bytes address count := by
  rw [wrote.memory, Memory.bytes_writeAll_of_misses missed]

/-- **Parts of code that run one after the other**, one for each element of a list. Each of them
writes its bytes whatever has been written for other elements before. -/
theorem of_each {α : Type} {elements : List α} {part : α → List Line → Prop}
    {parts : List (List Line)} (codes : List.Forall₂ part elements parts)
    (written : α → List Write)
    (each : ∀ element ∈ elements, ∀ lines, part element lines → ∀ earlier between,
      earlier ⊆ elements.flatMap written → Wrote scratch machine earlier between →
        ∃ next, executeAll lines between = some next ∧
          Wrote scratch between (written element) next) :
    ∃ next, executeAll parts.flatten machine = some next ∧
      Wrote scratch machine (elements.flatMap written) next := by
  -- what has been written so far, and what is left, are all that is written in the end
  have run : ∀ (left : List α) (parts : List (List Line)) (done : List Write) (between : Machine),
      List.Forall₂ part left parts → left ⊆ elements →
      done ++ left.flatMap written = elements.flatMap written →
      Wrote scratch machine done between →
      ∃ next, executeAll parts.flatten between = some next ∧
        Wrote scratch machine (elements.flatMap written) next := by
    intro left parts done between codes
    induction codes generalizing done between with
    | nil =>
      intro _ complete wrote
      rw [List.flatMap_nil, List.append_nil] at complete
      exact ⟨between, rfl, complete ▸ wrote⟩
    | @cons element lines left parts code _ ih =>
      intro inside complete wrote
      obtain ⟨member, inside⟩ := List.cons_subset.mp inside
      rw [List.flatMap_cons, ← List.append_assoc] at complete
      have earlier : done ⊆ elements.flatMap written := by
        rw [← complete, List.append_assoc]
        exact List.subset_append_left _ _
      obtain ⟨next, ran, wrote'⟩ := each element member lines code done between earlier wrote
      obtain ⟨last, ran', finish⟩ := ih (done ++ written element) next inside complete
        (wrote.trans wrote')
      exact ⟨last, executeAll_append_of ran ran', finish⟩
  exact run elements parts [] machine codes (List.Subset.refl _) rfl (refl scratch machine)

end Wrote

end Machine

/-! ### Words -/

/-- A register takes a result, and flags are kept. -/
theorem wrote_result {line : Line} {machine : Machine} {register : Register} {value : BitVec 64}
    {flags : Option Flags}
    (done : execute line machine = some ((machine.setRegister register value).setFlags flags)) :
    ∃ next, executeAll [line] machine = some next ∧ next.registers register = value ∧
      machine.Wrote [register] [] next := by
  refine ⟨_, (executeAll_singleton _ _).trans done, ?_,
    ((Machine.Wrote.refl _ machine).setRegister List.mem_cons_self value).setFlags flags⟩
  rw [Machine.registers_setFlags, Machine.registers_setRegister_self]

/-- A register takes the value of another operand. -/
theorem wrote_load (machine : Machine) (source : Operand) (register : Register) :
    ∃ next, executeAll [.mov .quad source (.full register)] machine = some next ∧
      next.registers register = machine.read .quad source ∧ machine.Wrote [register] [] next := by
  refine ⟨machine.setRegister register (machine.read .quad source), ?_,
    Machine.registers_setRegister_self _ _ _,
    (Machine.Wrote.refl _ machine).setRegister List.mem_cons_self _⟩
  rw [executeAll_singleton]
  exact Machine.write_full machine register _

/-- A register takes the address of an operand. -/
theorem wrote_lea {source : Operand} {address : BitVec 64} (machine : Machine)
    (known : machine.address? source = some address) (register : Register) :
    ∃ next, executeAll [.lea source register] machine = some next ∧
      next.registers register = address ∧ machine.Wrote [register] [] next := by
  refine ⟨machine.setRegister register address, ?_, Machine.registers_setRegister_self _ _ _,
    (Machine.Wrote.refl _ machine).setRegister List.mem_cons_self _⟩
  rw [executeAll_singleton]
  show (machine.address? source).map _ = _
  rw [known]
  rfl

/-- A register takes a word from the instruction. -/
theorem wrote_movabs (machine : Machine) (amount : Int) (register : Register) :
    ∃ next, executeAll [.movabs amount register] machine = some next ∧
      next.registers register = BitVec.ofInt 64 amount ∧ machine.Wrote [register] [] next :=
  ⟨machine.setRegister register (BitVec.ofInt 64 amount), rfl,
    Machine.registers_setRegister_self _ _ _,
    (Machine.Wrote.refl _ machine).setRegister List.mem_cons_self _⟩

/-- A word of memory takes the value of a register. -/
theorem wrote_store (machine : Machine) (register base : Register) (displacement : Int) :
    ∃ next, executeAll [.mov .quad (.full register) (.memory base displacement)] machine =
      some next ∧ machine.Wrote [] [⟨offset (machine.registers base) displacement,
        Bytes.ofNat 8 (machine.registers register).toNat⟩] next := by
  refine ⟨machine.store (offset (machine.registers base) displacement) 8
    (machine.registers register).toNat, ?_, fun _ _ => rfl, rfl, rfl⟩
  rw [executeAll_singleton]
  show machine.write .quad (machine.read .quad (.full register)) (.memory base displacement) = _
  rw [Machine.read_full]
  rfl

/-! ### Sums -/

theorem wrote_sub (machine : Machine) (amount : Int) :
    ∃ next, executeAll [.arithmetic .sub .quad (.immediate amount) (.full .rsp)] machine =
      some next ∧ next.registers .rsp = offset (machine.registers .rsp) (-amount) ∧
      machine.Wrote [.rsp] [] next := by
  let top := machine.registers .rsp
  have done : execute (.arithmetic .sub .quad (.immediate amount) (.full .rsp)) machine =
      some ((machine.setRegister .rsp (top - BitVec.ofInt 64 amount)).setFlags
        (some (.ofSubtraction top (BitVec.ofInt 64 amount)))) := by
    have read : machine.read .quad (.full .rsp) = top := machine.read_full .rsp
    rw [execute, Machine.arithmetic, read]
    exact Machine.writeResult_full machine .rsp _ _
  obtain ⟨next, ran, value, wrote⟩ := wrote_result done
  refine ⟨next, ran, ?_, wrote⟩
  rw [value, offset, BitVec.ofInt_neg, ← BitVec.sub_eq_add_neg]

/-- A register is added to. -/
theorem wrote_sum {value : BitVec 64} {source : Operand} (machine : Machine)
    (known : machine.read .quad source = value) (register : Register) :
    ∃ next, executeAll [.arithmetic .add .quad source (.full register)] machine = some next ∧
      next.registers register = machine.registers register + value ∧
      machine.Wrote [register] [] next := by
  have done : execute (.arithmetic .add .quad source (.full register)) machine =
      some ((machine.setRegister register (machine.registers register + value)).setFlags
        (some (.ofAddition (machine.registers register) value))) := by
    have read := machine.read_full register
    rw [execute, Machine.arithmetic, read, known]
    exact Machine.writeResult_full machine register _ _
  exact wrote_result done

theorem wrote_add (machine : Machine) (amount : Int) (register : Register) :
    ∃ next, executeAll [.arithmetic .add .quad (.immediate amount) (.full register)] machine =
      some next ∧ next.registers register = offset (machine.registers register) amount ∧
      machine.Wrote [register] [] next := by
  have known : machine.read .quad (.immediate amount) = BitVec.ofInt 64 amount := rfl
  exact wrote_sum machine known register

/-- A register is negated. -/
theorem wrote_negate (machine : Machine) (register : Register) :
    ∃ next, executeAll [.negate .quad register] machine = some next ∧
      next.registers register = -machine.registers register ∧
      machine.Wrote [register] [] next := by
  have done : execute (.negate .quad register) machine =
      some ((machine.setRegister register (-machine.registers register)).setFlags none) := by
    have read : machine.read .quad (.register register .quad) = machine.registers register :=
      machine.read_full register
    rw [execute, read]
    exact Machine.writeResult_full machine register _ none
  exact wrote_result done

/-! ### The stack -/

/-- A call puts the address behind it on the stack. -/
def Machine.call (machine : Machine) (back : BitVec 64) : Machine :=
  let top := offset (machine.registers .rsp) (-8)
  (machine.store top 8 back.toNat).setRegister .rsp top

theorem registers_call (machine : Machine) (back : BitVec 64) :
    (machine.call back).registers .rsp = offset (machine.registers .rsp) (-8) :=
  Machine.registers_setRegister_self _ _ _

/-- A word is put on the stack. -/
theorem wrote_call (machine : Machine) (back : BitVec 64) :
    ∃ write : Write, write.Below (machine.registers .rsp) 8 ∧
      machine.Wrote [.rsp] [write] (machine.call back) := by
  have place : (-8 : Int) = -((8 : Nat) : Int) + (0 : Nat) := by decide
  refine ⟨⟨offset (machine.registers .rsp) (-8), Bytes.ofNat 8 back.toNat⟩,
    ⟨0, congrArg (offset _) place, ?_⟩, ?_⟩
  · exact Nat.le_of_eq (Bytes.length_ofNat 8 back.toNat)
  · exact ⟨fun register outside => Machine.registers_setRegister_of_ne (by simpa using outside) _,
      rfl, rfl⟩

/-- **Registers are put on the stack.** -/
theorem wrote_pushes (registers : List Register) (machine : Machine) :
    ∃ next writes, executeAll (registers.map .push) machine = some next ∧
      next.registers .rsp = offset (machine.registers .rsp) (-(8 * registers.length : Nat)) ∧
      machine.Wrote [.rsp] writes next ∧
      ∀ write ∈ writes, write.Below (machine.registers .rsp) (8 * registers.length) := by
  induction registers generalizing machine with
  | nil => exact ⟨machine, [], rfl, (offset_zero _).symm, .refl _ _, nofun⟩
  | cons register registers ih =>
    obtain ⟨write, below, wrote⟩ := wrote_call machine (machine.registers register)
    obtain ⟨next, writes, ran, foot, wrote', below'⟩ := ih (machine.push register)
    have top : (machine.push register).registers .rsp = offset (machine.registers .rsp) (-8) :=
      registers_call machine _
    rw [top] at foot below'
    refine ⟨next, write :: writes, ran, ?_, wrote.trans wrote', List.forall_mem_cons.mpr ⟨?_, ?_⟩⟩
    · rw [foot, offset_offset, List.length_cons]
      congr 1
      omega
    · exact below.mono (by rw [List.length_cons]; omega)
    · intro write member
      have lower : write.Below (offset (machine.registers .rsp) (-((8 : Nat) : Int)))
          (8 * registers.length) := below' write member
      exact lower.raise.mono (by rw [List.length_cons]; omega)

end Asm

end SsaAmd64
