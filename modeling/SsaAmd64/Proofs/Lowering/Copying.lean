/-
**Copies of any size.**

Bytes are copied in pieces of 8, 4, 2 and 1 bytes, and constant bytes are stored likewise. What is
written are the bytes that were there before, or those of the constant, as long as the copy does not
reach what it still has to read.

* `Lowering.wrote_copyMemory`: memory to memory;
* `Lowering.wrote_storeBytes`: constant bytes;
* `Source.bytes`: the bytes of a value, wherever it is read from;
* `Lowering.wrote_copyTo`: a value of any size into memory;
* `Lowering.wrote_reserve`: an area of any size below the stack pointer.
-/

import SsaAmd64.Lowering.Call
import SsaAmd64.Proofs.Machine.Writing
import SsaAmd64.Proofs.Outcomes

namespace SsaAmd64

open Asm

/-- **The bytes of a value of a size**, wherever it is read from: what is in its home slot, the image
of a literal, or the address of a symbol. -/
def Source.bytes (machine : Machine) (size : Nat) : Source → List UInt8
  | .slot displacement =>
    machine.memory.bytes (offset (machine.registers .rbp) displacement) size
  | .literal held => held.image size
  | .symbol name => Bytes.ofNat size (machine.symbols name).toNat

/-- Whether a value of a size can be copied to an address: a slot has to be apart from it, and only
the eight bytes of an address are copied. -/
def Source.Copies (machine : Machine) (size : Nat) (address : BitVec 64) : Source → Prop
  | .slot displacement =>
    Apart address size (offset (machine.registers .rbp) displacement) size
  | .literal _ => True
  | .symbol _ => size = 8

@[simp] theorem Source.length_bytes (machine : Machine) (size : Nat) (source : Source) :
    (source.bytes machine size).length = size := by
  cases source <;> simp [bytes]

namespace Lowering

variable {lowering : Lowering} {id : ValueId} {machine : Machine} {lines : List Line}
variable {base origin : Register} {start place : Int} {size : Nat}

/-! ### Pieces -/

theorem pieceWidth_le {remaining : Nat} (positive : 0 < remaining) :
    (pieceWidth remaining).bytes ≤ remaining := by
  rw [pieceWidth]
  split
  · assumption
  · split
    · assumption
    · split
      · assumption
      · exact positive

/-- A piece is copied through `%rax`. -/
theorem wrote_copyPiece (width : Width) (machine : Machine) (origin : Register) (place : Int)
    (kept : base ≠ .rax) (start : Int) :
    ∃ next, executeAll [.mov width (.memory origin place) (.register .rax width),
        .mov width (.register .rax width) (.memory base start)] machine = some next ∧
      Machine.Wrote [.rax] machine [⟨offset (machine.registers base) start,
        machine.memory.bytes (offset (machine.registers origin) place) width.bytes⟩] next := by
  let content := machine.memory.bytes (offset (machine.registers origin) place) width.bytes
  let value := machine.read width (.memory origin place)
  let between := machine.setRegister .rax (width.merge (machine.registers .rax) value)
  have held : between.read width (.register .rax width) = value := by
    rw [Machine.read, Machine.registers_setRegister_self, Width.setWidth_merge]
  have number : Bytes.ofNat width.bytes value.toNat = content := by
    have length : content.length = width.bytes := Memory.length_bytes _ _ _
    have small : Bytes.toNat content < 2 ^ width.bits := by
      have bound := Machine.toNat_bytes_lt content
      rwa [length] at bound
    show Bytes.ofNat width.bytes (BitVec.ofNat width.bits (Bytes.toNat content)).toNat = content
    rw [BitVec.toNat_ofNat, Nat.mod_eq_of_lt small, ← length, Bytes.ofNat_toNat]
  refine ⟨between.store (offset (machine.registers base) start) width.bytes value.toNat, ?_, ?_⟩
  · rw [executeAll_cons]
    show executeAll [.mov width (.register .rax width) (.memory base start)] between = _
    rw [executeAll_singleton, execute, held, Machine.write, Machine.registers_setRegister_of_ne kept]
  · refine ⟨fun register outside => ?_, rfl, ?_⟩
    · exact Machine.registers_setRegister_of_ne (by simpa using outside) _
    · show machine.memory.write _ (Bytes.ofNat width.bytes value.toNat) = _
      rw [number]
      rfl

/-- The piece of a copy at an offset and all that follow. -/
theorem wrote_copyPieces (machine : Machine) (place start : Int) (shift size : Nat)
    (kept : base ≠ .rax) (kept' : origin ≠ .rax)
    (apart : Apart (offset (machine.registers base) (start + shift)) size
      (offset (machine.registers origin) (place + shift)) size) :
    ∃ next, executeAll ((pieces shift size).flatMap fun (offset, width) =>
        [.mov width (.memory origin (place + offset)) (.register .rax width),
          .mov width (.register .rax width) (.memory base (start + offset))]) machine = some next ∧
      Machine.Wrote [.rax] machine [⟨offset (machine.registers base) (start + shift),
        machine.memory.bytes (offset (machine.registers origin) (place + shift)) size⟩] next := by
  induction size using Nat.strongRecOn generalizing machine shift with
  | ind size ih =>
    rw [pieces]
    split
    case isTrue empty =>
      subst empty
      exact ⟨machine, rfl, fun _ _ => rfl, rfl, rfl⟩
    case isFalse some' =>
      have less := pieceWidth_le (Nat.pos_of_ne_zero some')
      have positive := pieceWidth_pos size
      generalize pieceWidth size = width at less positive
      obtain ⟨rest, rfl⟩ := Nat.exists_eq_add_of_le less
      obtain ⟨between, ran, wrote⟩ :=
        wrote_copyPiece width machine origin (place + shift) kept (start + shift)
      -- the rest is read from where the first piece has not been written
      have base' : between.registers base = machine.registers base :=
        wrote.registers base (by simpa using kept)
      have origin' : between.registers origin = machine.registers origin :=
        wrote.registers origin (by simpa using kept')
      have later : ∀ (register : BitVec 64) (first : Int),
          offset register (first + (shift + width.bytes : Nat)) =
            offset register (first + shift) + BitVec.ofNat 64 width.bytes := by
        intro register first
        rw [offset_add_ofNat, Int.natCast_add, Int.add_assoc]
      have rest' : between.memory.bytes
          (offset (machine.registers origin) (place + (shift + width.bytes : Nat))) rest =
          machine.memory.bytes
            (offset (machine.registers origin) (place + (shift + width.bytes : Nat))) rest := by
        refine wrote.bytes_eq (List.forall_mem_singleton.mpr ?_)
        rw [Write.Misses, Memory.length_bytes, later]
        intro i inside j inside' same
        rw [BitVec.add_assoc, ← BitVec.ofNat_add] at same
        exact apart i (by omega) (width.bytes + j) (by omega) same
      obtain ⟨next, ran', wrote'⟩ := ih rest (by omega) between (shift + width.bytes) (by
        rw [base', origin', later, later]
        intro i inside j inside' same
        rw [BitVec.add_assoc, BitVec.add_assoc, ← BitVec.ofNat_add, ← BitVec.ofNat_add] at same
        exact apart (width.bytes + i) (by omega) (width.bytes + j) (by omega) same)
      rw [base', origin', rest', later, later] at wrote'
      refine ⟨next, ?_, ?_⟩
      · dsimp only
        rw [Nat.add_sub_cancel_left, List.flatMap_cons]
        exact executeAll_append_of ran ran'
      · have both := wrote.trans wrote'
        refine ⟨both.registers, both.symbols, ?_⟩
        rw [both.memory, List.singleton_append, Memory.writeAll_cons, Memory.writeAll_cons,
          Memory.writeAll_cons, Memory.bytes_add, Memory.write_append, Memory.length_bytes]

/-- **Memory is copied to memory** that is apart from it. -/
theorem wrote_copyMemory (machine : Machine) (kept : base ≠ .rax) (kept' : origin ≠ .rax)
    (apart : Apart (offset (machine.registers base) start) size
      (offset (machine.registers origin) place) size) :
    ∃ next, executeAll (copyMemory origin place base start size) machine = some next ∧
      Machine.Wrote [.rax] machine [⟨offset (machine.registers base) start,
        machine.memory.bytes (offset (machine.registers origin) place) size⟩] next := by
  have whole := wrote_copyPieces machine place start 0 size kept kept'
  simp only [Int.natCast_zero, Int.add_zero] at whole
  exact whole apart

/-! ### Constants -/

/-- Constant bytes are stored in one piece, through `%rax` if they are too wide. -/
theorem wrote_storePiece (width : Width) (machine : Machine) (bytes : List UInt8)
    (length : bytes.length = width.bytes) (kept : base ≠ .rax) (start : Int) :
    ∃ next, executeAll (storePiece width bytes (.memory base start)) machine = some next ∧
      Machine.Wrote [.rax] machine [⟨offset (machine.registers base) start, bytes⟩] next := by
  let number := Bytes.toNat bytes
  let word := pieceValue width bytes
  have small : number < 2 ^ width.bits := by
    have bound := Machine.toNat_bytes_lt bytes
    rwa [length] at bound
  have image : Bytes.ofNat width.bytes number = bytes := by
    rw [← length, Bytes.ofNat_toNat]
  -- the word that is stored ends in the bytes of the piece, whatever comes above them
  have value : ∀ bits, width.bits ≤ bits →
      ((BitVec.ofInt bits word).setWidth width.bits).toNat = number := by
    intro bits narrow
    have divides : ((2 ^ width.bits : Nat) : Int) ∣ (2 ^ bits : Nat) :=
      Int.natCast_dvd_natCast.mpr (Nat.pow_dvd_pow 2 narrow)
    have positive : ((2 ^ bits : Nat) : Int) ≠ 0 :=
      Int.natCast_ne_zero.mpr (Nat.ne_of_gt (Nat.two_pow_pos bits))
    have residue : word % ((2 ^ width.bits : Nat) : Int) = number := by
      show (pieceValue width bytes) % _ = _
      rw [pieceValue]
      refine Int.bmod_emod.trans ?_
      exact Int.emod_eq_of_lt (Int.natCast_nonneg _) (Int.ofNat_lt.mpr small)
    rw [BitVec.toNat_setWidth, BitVec.toNat_ofInt]
    refine Int.ofNat.inj ?_
    show (((word % ((2 ^ bits : Nat) : Int)).toNat % 2 ^ width.bits : Nat) : Int) = number
    rw [Int.natCast_emod, Int.toNat_of_nonneg (Int.emod_nonneg _ positive),
      Int.emod_emod_of_dvd _ divides, residue]
  have stored : ∀ before : Machine, before.memory = machine.memory →
      (before.store (offset (machine.registers base) start) width.bytes number).memory =
        machine.memory.writeAll [⟨offset (machine.registers base) start, bytes⟩] := by
    intro before same
    show before.memory.write _ (Bytes.ofNat width.bytes number) = _
    rw [image, same]
    rfl
  unfold storePiece
  dsimp only
  split
  · refine ⟨machine.store (offset (machine.registers base) start) width.bytes number, ?_,
      fun _ _ => rfl, rfl, stored machine rfl⟩
    have written := value width.bits (Nat.le_refl _)
    rw [BitVec.setWidth_eq] at written
    rw [executeAll_singleton, execute, Machine.read, Machine.write, written]
  · let between := machine.setRegister .rax (BitVec.ofInt 64 word)
    refine ⟨between.store (offset (machine.registers base) start) width.bytes number, ?_,
      fun register outside => Machine.registers_setRegister_of_ne (by simpa using outside) _, rfl,
      stored between rfl⟩
    have held : (between.read width (.full .rax)).toNat = number := by
      show ((between.registers .rax).setWidth width.bits).toNat = number
      rw [Machine.registers_setRegister_self]
      exact value 64 (by cases width <;> decide)
    rw [executeAll_cons]
    show executeAll [.mov width (.full .rax) (.memory base start)] between = _
    rw [executeAll_singleton, execute, Machine.write, held,
      Machine.registers_setRegister_of_ne kept]

theorem wrote_storePieces (machine : Machine) (bytes : List UInt8) (start : Int) (shift : Nat)
    (kept : base ≠ .rax) (rest : List UInt8) (left : bytes.drop shift = rest) :
    ∃ next, executeAll ((pieces shift rest.length).flatMap fun (offset, width) =>
        storePiece width ((bytes.drop offset).take width.bytes) (.memory base (start + offset)))
        machine = some next ∧
      Machine.Wrote [.rax] machine [⟨offset (machine.registers base) (start + shift), rest⟩]
        next := by
  generalize length : rest.length = size
  induction size using Nat.strongRecOn generalizing machine shift rest with
  | ind size ih =>
    rw [pieces]
    split
    case isTrue empty =>
      subst empty
      obtain rfl := List.eq_nil_of_length_eq_zero length
      exact ⟨machine, rfl, fun _ _ => rfl, rfl, rfl⟩
    case isFalse some' =>
      have less := pieceWidth_le (Nat.pos_of_ne_zero some')
      have positive := pieceWidth_pos size
      generalize pieceWidth size = width at less positive
      have piece : (rest.take width.bytes).length = width.bytes := by
        rw [List.length_take]
        omega
      obtain ⟨between, ran, wrote⟩ := wrote_storePiece width machine (rest.take width.bytes) piece
        kept (start + shift)
      have base' : between.registers base = machine.registers base :=
        wrote.registers base (by simpa using kept)
      obtain ⟨next, ran', wrote'⟩ := ih (size - width.bytes) (by omega) between
        (shift + width.bytes) (rest.drop width.bytes)
        (by rw [← List.drop_drop, left]) (by rw [List.length_drop, length])
      rw [base', Int.natCast_add, ← Int.add_assoc, ← offset_add_ofNat] at wrote'
      refine ⟨next, ?_, ?_⟩
      · dsimp only
        rw [List.flatMap_cons]
        dsimp only
        rw [left]
        exact executeAll_append_of ran ran'
      · have both := wrote.trans wrote'
        refine ⟨both.registers, both.symbols, ?_⟩
        have whole := Memory.write_append machine.memory
          (offset (machine.registers base) (start + shift)) (rest.take width.bytes)
          (rest.drop width.bytes)
        rw [List.take_append_drop, piece] at whole
        rw [both.memory]
        exact whole.symm

/-- **Constant bytes are stored.** -/
theorem wrote_storeBytes (machine : Machine) (bytes : List UInt8) (kept : base ≠ .rax)
    (start : Int) :
    ∃ next, executeAll (storeBytes bytes base start) machine = some next ∧
      Machine.Wrote [.rax] machine [⟨offset (machine.registers base) start, bytes⟩] next := by
  have whole := wrote_storePieces machine bytes start 0 kept bytes List.drop_zero
  rw [Int.natCast_zero, Int.add_zero] at whole
  exact whole

/-! ### Values -/

/-- **A value of any size is copied into memory.** -/
theorem wrote_copyTo {source : Source} (known : lowering.source id = .ok source)
    (code : lowering.copyTo id base start size = .ok lines) (kept : base ≠ .rax)
    (copies : source.Copies machine size (offset (machine.registers base) start)) :
    ∃ next, executeAll lines machine = some next ∧ Machine.Wrote [.rax] machine
      [⟨offset (machine.registers base) start, source.bytes machine size⟩] next := by
  rw [copyTo, known] at code
  cases source with
  | slot displacement =>
    obtain rfl := Except.ok.inj code
    exact wrote_copyMemory machine kept (by decide) copies
  | literal literal =>
    obtain rfl := Except.ok.inj code
    exact wrote_storeBytes machine _ kept start
  | symbol symbol =>
    obtain rfl := Except.ok.inj code
    obtain rfl : size = 8 := copies
    let between := machine.setRegister .rax (machine.symbols symbol)
    refine ⟨between.store (offset (machine.registers base) start) 8 (machine.symbols symbol).toNat,
      ?_, fun register outside => Machine.registers_setRegister_of_ne (by simpa using outside) _, rfl,
      rfl⟩
    have held : between.read .quad (.full .rax) = machine.symbols symbol :=
      (Machine.read_full between .rax).trans (Machine.registers_setRegister_self _ _ _)
    rw [executeAll_cons]
    show executeAll [.mov .quad (.full .rax) (.memory base start)] between = _
    rw [executeAll_singleton, execute, held]
    show some (between.store (offset (between.registers base) start) 8 _) = _
    rw [Machine.registers_setRegister_of_ne kept]
    rfl

/-! ### The stack pointer -/

theorem wrote_reserve (machine : Machine) (size : Nat) :
    ∃ next, executeAll (adjustStack .sub size) machine = some next ∧
      next.registers .rsp = offset (machine.registers .rsp) (-(size : Int)) ∧
      machine.Wrote [.rsp] [] next := by
  rw [adjustStack]
  split
  case isTrue empty =>
    refine ⟨machine, rfl, ?_, .refl _ _⟩
    rw [empty]
    exact (offset_zero _).symm
  case isFalse =>
    obtain ⟨next, ran, moved, wrote⟩ := wrote_sub machine (signed64 size)
    exact ⟨next, ran, moved.trans (offset_neg_signed64 _ _), wrote⟩

end Lowering

end SsaAmd64
