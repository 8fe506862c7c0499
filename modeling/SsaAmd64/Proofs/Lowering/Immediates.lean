/-
**Literals as operands and in home slots.**

A literal that fits a register is either written into the instruction that loads it, extended when
the code is made, or it is in a home slot, from where an instruction loads and extends it. Both
leave the same word in the register.

* `Literal.stands_of_registerWidth`: the number that a literal stands for;
* `Literal.word`: the word that a literal is read as;
* `Lowering.LoadsAs`: what the code that loads a value leaves in a register;
* `Lowering.loadInt_literal_eq_slot`: a literal and a home slot that was filled with it are loaded
  as the same word.
-/

import SsaAmd64.Proofs.Lowering.Assignment
import SsaAmd64.Proofs.Lowering.Operands

namespace SsaAmd64

open Asm

/-! ### Images as numbers -/

namespace Bytes

@[simp] theorem toNat_replicate_zero (count : Nat) : toNat (List.replicate count 0) = 0 := by
  induction count with
  | zero => rfl
  | succ count ih => rw [List.replicate_succ, toNat, ih, UInt8.toNat_zero]

/-- Bytes that are filled up with zeros stand for the same number. -/
theorem toNat_append_zeros (bytes : List UInt8) (count : Nat) :
    toNat (bytes ++ List.replicate count 0) = toNat bytes := by
  induction bytes with
  | nil => exact toNat_replicate_zero count
  | cons byte bytes ih => rw [List.cons_append, toNat, toNat, ih]

theorem toNat_resize {bytes : List UInt8} {count : Nat} (enough : bytes.length ≤ count) :
    toNat (resize count bytes) = toNat bytes := by
  rw [resize, List.take_of_length_le enough, toNat_append_zeros]

end Bytes

namespace Literal

variable {literal : Literal} {bits number : Nat} {width : Width}

theorem stands_float (format : FloatFormat) (pattern : Nat) :
    (Literal.float format pattern).Stands format.width (pattern % patternCount format.width) := by
  have fits : pattern % patternCount format.width < patternCount format.width :=
    Nat.mod_lt _ (patternCount_pos _)
  exact ⟨fun _ enough => Bytes.toNat_ofNat_of_lt fits enough, fits⟩

theorem stands_bytes (content : List UInt8) :
    (Literal.bytes content).Stands (8 * content.length) (Bytes.toNat content) :=
  ⟨fun _ enough => Bytes.toNat_resize (by omega), Machine.toNat_bytes_lt content⟩

/-- **A literal whose type fits a register** stands for a number of as many bits as are loaded. -/
theorem stands_of_registerWidth {lowering : Lowering}
    (known : lowering.registerWidth literal.type = .ok width) :
    Lowering.bitsOf literal.type width ∈ registerWidths ∧
      width = .holding (Lowering.bitsOf literal.type width) ∧
      ∃ number, literal.Stands (Lowering.bitsOf literal.type width) number := by
  have size := Lowering.size_of_registerWidth known
  -- what is not an integer has as many bits as its bytes
  have wide : 8 * width.bytes ∈ registerWidths := by cases width <;> decide
  have holds : width = .holding (8 * width.bytes) := by cases width <;> decide
  cases literal with
  | int bits value inRange =>
    have sized : (Ty.int bits).bits? = some bits := rfl
    obtain ⟨narrow, rfl⟩ := Lowering.wide_of_registerWidth sized known
    exact ⟨narrow, rfl, value, stands_int narrow inRange⟩
  | float format pattern =>
    have whole : format.width / 8 = width.bytes := Except.ok.inj size
    have stands := stands_float format pattern
    have bits : format.width = 8 * width.bytes := by
      rw [← whole]
      cases format <;> rfl
    rw [bits] at stands
    exact ⟨wide, holds, _, stands⟩
  | bytes content =>
    have counted : 1 * content.length = width.bytes := Except.ok.inj size
    have stands := stands_bytes content
    rw [← Nat.one_mul content.length, counted] at stands
    exact ⟨wide, holds, _, stands⟩

/-- **The word that a literal is read as**: its image, extended by zeros or by the sign of the bits
of its type. -/
def word (literal : Literal) (width : Width) (signed : Bool) : BitVec 64 :=
  .ofInt 64 (readingOf signed (Lowering.bitsOf literal.type width)
    (Bytes.toNat (literal.image width.bytes)))

end Literal

/-! ### The two ways to load a literal -/

namespace Lowering

variable {lowering : Lowering} {constant value : ValueId} {literal : Literal} {width : Width}
variable {machine : Machine} {base : Register} {start displacement : Int}

/-- **The code that loads a value leaves a word in the register**, and it changes no other register
and no byte of memory. -/
def LoadsAs (lowering : Lowering) (id : ValueId) (target : Register) (signed : Bool)
    (machine : Machine) (word : BitVec 64) : Prop :=
  ∃ lines next, lowering.loadInt id target signed = .ok lines ∧
    executeAll lines machine = some next ∧ next.registers target = word ∧
    machine.Wrote [target] [] next

/-- **A literal is extended when the code is made.** -/
theorem loadsAs_literal (found : lowering.subject.literal? constant = some literal)
    (fits : lowering.registerWidth literal.type = .ok width) (target : Register) (signed : Bool)
    (machine : Machine) :
    lowering.LoadsAs constant target signed machine (literal.word width signed) := by
  obtain ⟨wide, holds, number, stands⟩ := Literal.stands_of_registerWidth fits
  have room : bitsOf literal.type width ≤ 8 * width.bytes := by
    have room := le_bits_holding wide
    rwa [← holds] at room
  have code : lowering.loadInt constant target signed =
      .ok [loadImmediate (literalWord literal (bitsOf literal.type width) signed) target] := by
    rw [loadInt, source_of_literal found, Module.typeOf_literal found]
    exact bind_of_ok fits _
  refine ⟨_, _, code, (executeAll_singleton _ _).trans (execute_loadImmediate _ _ _), ?_,
    (Machine.Wrote.refl _ machine).setRegister (List.mem_singleton_self target) _⟩
  rw [Machine.registers_setRegister_self, Literal.word, stands.image _ room]
  exact ofInt_literalWord wide stands signed

/-- **A home slot is extended when it is loaded.** -/
theorem loadsAs_slot (fits : lowering.registerWidth literal.type = .ok width)
    (home : lowering.source value = .ok (.slot displacement))
    (typed : lowering.subject.typeOf value = literal.type)
    (filled : machine.memory.bytes (offset (machine.registers .rbp) displacement) width.bytes =
      literal.image width.bytes) (target : Register) (signed : Bool) :
    lowering.LoadsAs value target signed machine (literal.word width signed) := by
  obtain ⟨wide, holds, -, -⟩ := Literal.stands_of_registerWidth fits
  have isBit : literal.type = .int 1 ↔ bitsOf literal.type width = 1 := by
    cases literal with
    | int => simp [Literal.type, bitsOf, Ty.width?]
    | float | bytes =>
      simp only [Literal.type, bitsOf, Ty.width?, reduceCtorEq, false_iff, Option.getD_none]
      omega
  have loaded : machine.load (offset (machine.registers .rbp) displacement)
      (Width.holding (bitsOf literal.type width)).bytes =
        Bytes.toNat (literal.image width.bytes) := by
    rw [← holds, Machine.load, filled]
  obtain ⟨next, ran, read, wrote⟩ := executeAll_loadSlot loaded wide target signed
  rw [← holds, ← decide_eq_decide.mpr isBit] at ran
  refine ⟨_, next, ?_, ran, read, wrote⟩
  rw [loadInt, home, typed]
  exact bind_of_ok fits _

/-- **A literal that fits a register and a home slot of its type that was filled with it are loaded
as the same word**, by its sign or as it is, into any register: the one by an immediate that was
extended when the code was made, the other, as long as the slot is as it was filled, by an
instruction that extends it. -/
theorem loadInt_literal_eq_slot (found : lowering.subject.literal? constant = some literal)
    (fits : lowering.registerWidth literal.type = .ok width)
    (home : lowering.source value = .ok (.slot displacement))
    (typed : lowering.subject.typeOf value = literal.type) (kept : base ≠ .rax)
    (place : offset (machine.registers base) start =
      offset (machine.registers .rbp) displacement) :
    ∃ lines filled, lowering.copyTo constant base start width.bytes = .ok lines ∧
      executeAll lines machine = some filled ∧
      ∀ before later : Machine, later.registers .rbp = filled.registers .rbp →
        later.memory.bytes (offset (filled.registers .rbp) displacement) width.bytes =
          filled.memory.bytes (offset (filled.registers .rbp) displacement) width.bytes →
        ∀ target signed,
          lowering.LoadsAs constant target signed before (literal.word width signed) ∧
          lowering.LoadsAs value target signed later (literal.word width signed) := by
  have source := source_of_literal found
  have short : (literal.image width.bytes).length ≤ 0x10000000000000000 := by
    rw [Literal.length_image]
    cases width <;> decide
  have code : lowering.copyTo constant base start width.bytes =
      .ok (storeBytes (literal.image width.bytes) base start) := by
    rw [copyTo, source]
    rfl
  have copies : (Source.literal literal).Copies machine width.bytes
      (offset (machine.registers base) start) := trivial
  obtain ⟨filled, ran, wrote⟩ := wrote_copyTo source code kept copies
  have image : filled.memory.bytes (offset (filled.registers .rbp) displacement) width.bytes =
      literal.image width.bytes := by
    have back : (machine.memory.write (offset (machine.registers base) start)
        (literal.image width.bytes)).bytes (offset (machine.registers base) start)
          (literal.image width.bytes).length = literal.image width.bytes :=
      Memory.bytes_write_self short
    rw [Literal.length_image] at back
    rw [wrote.registers .rbp (by decide), ← place, wrote.memory]
    exact back
  refine ⟨_, filled, code, ran, fun before later frame untouched target signed =>
    ⟨loadsAs_literal found fits target signed before,
      loadsAs_slot fits home typed ?_ target signed⟩⟩
  rw [frame, untouched, image]

end Lowering

namespace Module

open Lowering

/-- A bit and two bytes, each as a parameter and as a literal. -/
def twins : Module :=
  builtBy "twins" [.addFunction ⟨[.int 1, .array 2 (.int 8)], .void, false⟩ "f",
    .addLiteral (.ofNat 1 1), .addLiteral (.bytes [0x34, 0xf2])]

def twinsLowering : Lowering where
  printer := Printer.of twins
  options := Options.default
  symbols := Symbols.empty
  function := ⟨0⟩
  frame := ⟨[(⟨1⟩, -1), (⟨2⟩, -4)], [], 16⟩
  plan := ⟨[⟨.integer, .general .rdi, none⟩, ⟨.integer, .general .rsi, none⟩], none, 0, 0⟩
  labels := []

/-- By their signs the bit is minus one, and the top byte of the two is filled up with ones. -/
theorem loadInt_literal_eq_slot_twins :
    (∃ lines filled, twinsLowering.copyTo ⟨3⟩ .rbp (-1) 1 = .ok lines ∧
      executeAll lines standing = some filled ∧
      twinsLowering.LoadsAs ⟨3⟩ .rcx true standing (-1) ∧
      twinsLowering.LoadsAs ⟨1⟩ .rcx true filled (-1)) ∧
    ∃ lines filled, twinsLowering.copyTo ⟨4⟩ .rbp (-4) 2 = .ok lines ∧
      executeAll lines standing = some filled ∧
      twinsLowering.LoadsAs ⟨4⟩ .rcx true standing 0xfffffffffffff234 ∧
      twinsLowering.LoadsAs ⟨2⟩ .rcx true filled 0xfffffffffffff234 := by
  constructor
  · have found : twinsLowering.subject.literal? ⟨3⟩ = some (.ofNat 1 1) := rfl
    have fits : twinsLowering.registerWidth (Literal.ofNat 1 1).type = .ok .byte := rfl
    have home : twinsLowering.source ⟨1⟩ = .ok (.slot (-1)) := rfl
    have word : (Literal.ofNat 1 1).word .byte true = -1 := by decide
    obtain ⟨lines, filled, code, ran, same⟩ := loadInt_literal_eq_slot found fits home rfl
      (by decide) (rfl : offset (standing.registers .rbp) (-1) = _)
    have both := same standing filled rfl rfl .rcx true
    rw [word] at both
    exact ⟨lines, filled, code, ran, both⟩
  · have found : twinsLowering.subject.literal? ⟨4⟩ = some (.bytes [0x34, 0xf2]) := rfl
    have fits : twinsLowering.registerWidth (Literal.bytes [0x34, 0xf2]).type = .ok .word := rfl
    have home : twinsLowering.source ⟨2⟩ = .ok (.slot (-4)) := rfl
    have word : (Literal.bytes [0x34, 0xf2]).word .word true = 0xfffffffffffff234 := by decide
    obtain ⟨lines, filled, code, ran, same⟩ := loadInt_literal_eq_slot found fits home rfl
      (by decide) (rfl : offset (standing.registers .rbp) (-4) = _)
    have both := same standing filled rfl rfl .rcx true
    rw [word] at both
    exact ⟨lines, filled, code, ran, both⟩

end Module

end SsaAmd64
