/-
**Arithmetic on extended values.**

A value narrower than a register is extended before it is computed with. The low bits of the result
are those of the operation at the width of the value, and the flags of a comparison tell what a
comparison at that width would.

* `extended`: a pattern of bits in a register, extended by its sign or by zeros;
* `holds_ofSubtraction`, `holds_extended`: the condition that a predicate is compiled to;
* `computes_operationLines`: the code of a binary operation.
-/

import SsaAmd64.Lowering.Arithmetic
import SsaAmd64.Proofs.Machine.Registers
import SsaAmd64.Proofs.Semantics.Integer

namespace SsaAmd64

namespace Asm

open Machine Lowering

/-- A pattern of bits in a register of 64 bits, extended by its sign or by zeros. -/
def extended {bits : Nat} (signed : Bool) (value : BitVec bits) : BitVec 64 :=
  if signed then value.signExtend 64 else value.setWidth 64

variable {bits : Nat} {first second result : BitVec bits} {signed : Bool}

theorem setWidth_extended (narrow : bits ≤ 64) (signed : Bool) (value : BitVec bits) :
    (extended signed value).setWidth bits = value := by
  cases signed with
  | false => exact (BitVec.setWidth_setWidth_of_le value narrow).trans (BitVec.setWidth_eq value)
  | true =>
    show (value.signExtend 64).setWidth bits = value
    rw [← BitVec.signExtend_eq_setWidth_of_le _ narrow]
    refine BitVec.eq_of_toInt_eq ?_
    rw [BitVec.toInt_signExtend_eq_toInt_bmod_of_le _ narrow, BitVec.toInt_signExtend_of_le narrow]
    exact BitVec.toInt_bmod_cancel value

theorem extended_inj (narrow : bits ≤ 64) :
    extended signed first = extended signed second ↔ first = second := by
  refine ⟨fun same => ?_, fun same => by rw [same]⟩
  rw [← setWidth_extended narrow signed first, same, setWidth_extended narrow signed second]

theorem toNat_extended (narrow : bits ≤ 64) (value : BitVec bits) :
    (extended false value).toNat = value.toNat :=
  BitVec.toNat_setWidth_of_le narrow

theorem toInt_extended (narrow : bits ≤ 64) (value : BitVec bits) :
    (extended true value).toInt = value.toInt :=
  BitVec.toInt_signExtend_of_le narrow

/-! ### Comparisons -/

theorem slt_flags (first second : BitVec 64) :
    ((Flags.ofSubtraction first second).sign != (Flags.ofSubtraction first second).overflow) =
      first.slt second := by
  have difference := BitVec.toNat_sub first second
  have one := first.isLt
  have other := second.isLt
  rw [BitVec.slt_eq_decide, BitVec.toInt_eq_toNat_cond, BitVec.toInt_eq_toNat_cond]
  simp only [Flags.ofSubtraction, BitVec.msb_eq_decide, difference]
  by_cases high : 2 ^ 63 ≤ first.toNat <;> by_cases high' : 2 ^ 63 ≤ second.toNat <;>
    by_cases sign : 2 ^ 63 ≤ (2 ^ 64 - second.toNat + first.toNat) % 2 ^ 64 <;>
    simp only [high, high', sign, decide_true, decide_false] <;>
    first
      | exact (decide_eq_true (by omega)).symm
      | exact (decide_eq_false (by omega)).symm

theorem zero_ofSubtraction (first second : BitVec 64) :
    (Flags.ofSubtraction first second).zero = decide (first = second) := by
  refine decide_eq_decide.mpr ⟨fun same => ?_, fun same => ?_⟩
  · bv_omega
  · rw [same]
    exact BitVec.sub_self second

theorem carry_ofSubtraction (first second : BitVec 64) :
    (Flags.ofSubtraction first second).carry = decide (first < second) :=
  rfl

/-- **The condition that a predicate is compiled to reads the predicate off the flags.** -/
theorem holds_ofSubtraction (predicate : Predicate) (first second : BitVec 64) :
    (Lowering.condition predicate).holds (.ofSubtraction first second) =
      predicate.holds first second := by
  have less := slt_flags first second
  have equal := zero_ofSubtraction first second
  have below := carry_ofSubtraction first second
  have notLess : ((Flags.ofSubtraction first second).sign ==
      (Flags.ofSubtraction first second).overflow) = !first.slt second := by
    rw [← less, bne, Bool.not_not]
  rw [Bool.eq_iff_iff]
  by_cases same : first = second
  · rw [decide_eq_true same] at equal
    subst same
    cases predicate <;>
      simp [Lowering.condition, Condition.holds, Predicate.holds, less, notLess, equal, below,
        BitVec.slt_eq_decide, BitVec.sle_eq_decide]
  · have differentInts : first.toInt ≠ second.toInt := fun equal => same (BitVec.toInt_inj.mp equal)
    have differentNats : first.toNat ≠ second.toNat := fun equal => same (BitVec.toNat_inj.mp equal)
    cases predicate <;>
      simp only [Lowering.condition, Condition.holds, Predicate.holds, less, notLess, equal, below,
        BitVec.slt_eq_decide, BitVec.sle_eq_decide, BitVec.lt_def, BitVec.le_def, Bool.and_eq_true,
        Bool.or_eq_true, Bool.not_eq_true', decide_eq_true_eq, decide_eq_false_iff_not, ne_eq,
        same, not_false_eq_true, false_or, or_false, and_true, true_and] <;>
      omega

/-- **Comparing extended values compares the values.** -/
theorem holds_extended (predicate : Predicate) (narrow : bits ≤ 64) :
    predicate.holds (extended predicate.isSigned first) (extended predicate.isSigned second) =
      predicate.holds first second := by
  have same := @extended_inj bits first second false narrow
  have one := toNat_extended narrow first
  have other := toNat_extended narrow second
  have one' := toInt_extended narrow first
  have other' := toInt_extended narrow second
  cases predicate <;>
    simp only [Predicate.holds, Predicate.isSigned, BitVec.lt_def, BitVec.le_def,
      BitVec.slt_eq_decide, BitVec.sle_eq_decide, one, other, one', other', same, ne_eq]

/-- The code of a comparison leaves in `%al` whether it holds. -/
theorem executeAll_compare (predicate : Predicate) (machine : Machine) :
    ∃ next, executeAll (onRegisters .cmp ++ [.set (condition predicate) .rax]) machine = some next ∧
      ((next.registers .rax).setWidth Width.byte.bits).toNat =
        (predicate.holds (machine.registers .rax) (machine.registers .rcx)).toNat ∧
      SameExcept [.rax] machine next := by
  let flags := Flags.ofSubtraction (machine.registers .rax) (machine.registers .rcx)
  let answer : BitVec Width.byte.bits := BitVec.ofNat 8 ((condition predicate).holds flags).toNat
  let answered := (machine.setFlags (some flags)).setRegister .rax
    (Width.byte.merge (machine.registers .rax) answer)
  have compares : executeAll (onRegisters .cmp) machine = some (machine.setFlags (some flags)) := by
    have readLeft := read_full machine .rax
    have readRight := read_full machine .rcx
    rw [onRegisters, executeAll_singleton, execute, arithmetic, readLeft, readRight]
    rfl
  have sets : executeAll [.set (condition predicate) .rax] (machine.setFlags (some flags)) =
      some answered :=
    executeAll_singleton _ _
  refine ⟨answered, executeAll_append_of compares sets, ?_, ?_⟩
  · rw [registers_setRegister_self, Width.setWidth_merge, ← holds_ofSubtraction]
    show (BitVec.ofNat 8 ((condition predicate).holds flags).toNat).toNat = _
    cases (condition predicate).holds flags <;> rfl
  · exact ((SameExcept.refl _ machine).setFlags _).setRegister (by simp) _

/-! ### Operations -/

variable {machine : Machine}

/-- **Lines leave the result of an operation in the low bits of `%rax`.** -/
def Computes (lines : List Line) (machine : Machine) (result : BitVec bits) : Prop :=
  ∃ next, executeAll lines machine = some next ∧ (next.registers .rax).setWidth bits = result ∧
    SameExcept [.rax, .rdx] machine next

theorem computes_onRegisters {operation : Arithmetic} (value : BitVec 64) (flags : Option Flags)
    (done : machine.arithmetic operation .quad (.full .rcx) (.full .rax) =
      some ((machine.setRegister .rax value).setFlags flags))
    (correct : value.setWidth bits = result) : Computes (onRegisters operation) machine result := by
  refine ⟨(machine.setRegister .rax value).setFlags flags, ?_, ?_, ?_⟩
  · rw [onRegisters, executeAll_singleton, execute, done]
  · rw [registers_setFlags, registers_setRegister_self, correct]
  · exact ((SameExcept.refl _ machine).setRegister (by simp) value).setFlags flags

/-- A shift by a count below the width of the value. -/
theorem computes_shiftRegister {operation : Shift} {count : Nat} (value : BitVec 64)
    (counted : machine.shiftCount .quad = count)
    (shifted : (match operation with
      | .left => machine.registers .rax <<< count
      | .logicalRight => machine.registers .rax >>> count
      | .arithmeticRight => (machine.registers .rax).sshiftRight count) = value)
    (correct : value.setWidth bits = result) :
    Computes (shiftRegister operation) machine result := by
  refine ⟨(machine.setRegister .rax value).setFlags none, ?_, ?_, ?_⟩
  · have read : machine.read .quad (.register .rax .quad) = machine.registers .rax :=
      read_full machine .rax
    rw [shiftRegister, executeAll_singleton, execute]
    unfold Machine.shift
    rw [counted, read]
    exact (congrArg (fun value => machine.writeResult .quad value none (.full .rax)) shifted).trans
      (writeResult_full machine .rax value none)
  · rw [registers_setFlags, registers_setRegister_self, correct]
  · exact ((SameExcept.refl _ machine).setRegister (by simp) value).setFlags none

/-- The count of a shift is that of the value it was extended from. -/
theorem shiftCount_extended (narrow : bits ≤ 64) (small : second.toNat < bits) (signed : Bool)
    (right : machine.registers .rcx = extended signed second) :
    machine.shiftCount .quad = second.toNat := by
  have same : (extended signed second).toNat = second.toNat := by
    cases signed with
    | false => exact toNat_extended narrow second
    | true =>
      have positive : second.msb = false := by
        rw [BitVec.msb_eq_decide, decide_eq_false_iff_not, Nat.not_le]
        have power : bits - 1 < 2 ^ (bits - 1) := Nat.lt_two_pow_self
        omega
      show (second.signExtend 64).toNat = second.toNat
      rw [BitVec.signExtend_eq_setWidth_of_msb_false positive]
      exact toNat_extended narrow second
  rw [shiftCount, right, same, if_pos rfl]
  omega

/-! ### Division -/

theorem append_sign (value : BitVec 64) :
    ((if value.msb then BitVec.allOnes 64 else 0) ++ value : BitVec 128).toInt = value.toInt := by
  have same : (value.signExtend 128).toInt = value.toInt :=
    BitVec.toInt_signExtend_of_le (by decide)
  rw [BitVec.signExtend_eq_append_of_le (by decide)] at same
  exact same

/-- What a division leaves behind. -/
def divided (machine : Machine) (quotient remainder : BitVec 64) : Machine :=
  ((machine.setRegister .rax quotient).setRegister .rdx remainder).setFlags none

theorem sameExcept_divided {before : Machine} (same : SameExcept [.rax, .rdx] before machine)
    (quotient remainder : BitVec 64) :
    SameExcept [.rax, .rdx] before (divided machine quotient remainder) :=
  ((same.setRegister (by simp) quotient).setRegister (by simp) remainder).setFlags none

/-- A signed division of a value that has been sign-extended into `%rdx`. -/
theorem divide_signed (narrow : bits ≤ 64) (quotient remainder : BitVec bits)
    (upper : machine.registers .rdx =
      if (machine.registers .rax).msb then BitVec.allOnes 64 else 0)
    (divisor : BitVec 64) (nonzero : divisor ≠ 0)
    (quotients : (machine.registers .rax).toInt.tdiv divisor.toInt = quotient.toInt)
    (remainders : (machine.registers .rax).toInt.tmod divisor.toInt = remainder.toInt) :
    machine.divide true divisor =
      some (divided machine (extended true quotient) (extended true remainder)) := by
  have dividend : (machine.registers .rdx ++ machine.registers .rax).toInt =
      (machine.registers .rax).toInt := by
    rw [upper]
    exact append_sign _
  have low := (quotient.signExtend 64).le_toInt
  have high := (quotient.signExtend 64).toInt_lt
  rw [BitVec.toInt_signExtend_of_le narrow] at low high
  rw [divide]
  simp only [if_true, dividend, quotients, remainders]
  rw [if_pos ⟨nonzero, by omega, by omega⟩]
  rfl

/-- An unsigned division with zero in `%rdx`. -/
theorem divide_unsigned (upper : machine.registers .rdx = 0) (divisor : BitVec 64)
    (nonzero : divisor ≠ 0) : machine.divide false divisor =
      some (divided machine (machine.registers .rax / divisor)
        (machine.registers .rax % divisor)) := by
  have dividend : (machine.registers .rdx ++ machine.registers .rax).toNat =
      (machine.registers .rax).toNat := by
    rw [upper, BitVec.toNat_append]
    simp
  have small : (machine.registers .rax).toNat / divisor.toNat < 0x10000000000000000 :=
    Nat.lt_of_le_of_lt (Nat.div_le_self _ _) (machine.registers .rax).isLt
  rw [divide]
  simp only [Bool.false_eq_true, if_false, dividend]
  rw [if_pos ⟨nonzero, by omega⟩, BitVec.ofInt_natCast, BitVec.ofInt_natCast, ← BitVec.toNat_udiv,
    ← BitVec.toNat_umod, BitVec.ofNat_toNat, BitVec.ofNat_toNat, BitVec.setWidth_eq,
    BitVec.setWidth_eq]
  rfl

/-- The code of an unsigned division leaves the quotient in `%rax` and the remainder in `%rdx`. -/
theorem executeAll_divideRegisters_unsigned (nonzero : machine.registers .rcx ≠ 0) :
    ∃ next, executeAll (divideRegisters false) machine = some next ∧
      next.registers .rax = machine.registers .rax / machine.registers .rcx ∧
      next.registers .rdx = machine.registers .rax % machine.registers .rcx ∧
      SameExcept [.rax, .rdx] machine next := by
  let cleared := (machine.setRegister .rdx 0).setFlags (some (.ofLogic (0 : BitVec 32)))
  have clear : execute (.arithmetic .xor .long (.register .rdx .long) (.register .rdx .long))
      machine = some cleared := by
    have zero : machine.read .long (.register .rdx .long) ^^^
        machine.read .long (.register .rdx .long) = 0 := BitVec.xor_self
    rw [execute, arithmetic]
    simp only [zero]
    rfl
  have division : execute (.divide false .quad (.full .rcx)) cleared =
      some (divided cleared (machine.registers .rax / machine.registers .rcx)
        (machine.registers .rax % machine.registers .rcx)) := by
    rw [execute, read_full]
    exact divide_unsigned rfl (machine.registers .rcx) nonzero
  have kept : SameExcept [.rax, .rdx] machine cleared :=
    ((SameExcept.refl _ machine).setRegister (by simp) 0).setFlags _
  refine ⟨divided cleared _ _, ?_, rfl, rfl, sameExcept_divided kept _ _⟩
  rw [divideRegisters, if_neg Bool.false_ne_true, executeAll_cons, clear, Option.bind_some,
    executeAll_singleton, division]

/-- The code of a signed division leaves the quotient in `%rax` and the remainder in `%rdx`. -/
theorem executeAll_divideRegisters_signed (narrow : bits ≤ 64)
    (left : machine.registers .rax = extended true first)
    (right : machine.registers .rcx = extended true second) (nonzero : second ≠ 0)
    (fits : ¬BinaryOp.Overflows first second) :
    ∃ next, executeAll (divideRegisters true) machine = some next ∧
      next.registers .rax = extended true (first.sdiv second) ∧
      next.registers .rdx = extended true (first.srem second) ∧
      SameExcept [.rax, .rdx] machine next := by
  let signed := machine.setRegister .rdx
    (if (machine.registers .rax).msb then BitVec.allOnes 64 else 0)
  have divisor : machine.registers .rcx ≠ 0 := by
    intro zero
    refine nonzero ?_
    rw [← setWidth_extended narrow true second, ← right, zero]
    exact BitVec.setWidth_zero bits 64
  have ordinary : first ≠ BitVec.intMin bits ∨ second ≠ -BitVec.ofNat bits 1 := by
    rw [BitVec.neg_one_eq_allOnes]
    exact Decidable.not_and_iff_or_not.mp fits
  have division : execute (.divide true .quad (.full .rcx)) signed =
      some (divided signed (extended true (first.sdiv second))
        (extended true (first.srem second))) := by
    rw [execute, read_full]
    refine divide_signed narrow _ _ rfl (machine.registers .rcx) divisor ?_ ?_
    · show (machine.registers .rax).toInt.tdiv (machine.registers .rcx).toInt = _
      rw [left, right, toInt_extended narrow, toInt_extended narrow,
        BitVec.toInt_sdiv_of_ne_or_ne _ _ ordinary]
    · show (machine.registers .rax).toInt.tmod (machine.registers .rcx).toInt = _
      rw [left, right, toInt_extended narrow, toInt_extended narrow, BitVec.toInt_srem]
  have kept : SameExcept [.rax, .rdx] machine signed :=
    (SameExcept.refl _ machine).setRegister (by simp) _
  refine ⟨divided signed _ _, ?_, rfl, rfl, sameExcept_divided kept _ _⟩
  rw [divideRegisters, if_pos rfl, executeAll_cons, execute, Option.bind_some,
    executeAll_singleton]
  exact division

/-- The remainder of a division as its result. -/
theorem computes_takeRemainder {lines : List Line} {next : Machine}
    (done : executeAll lines machine = some next)
    (correct : (next.registers .rdx).setWidth bits = result)
    (same : SameExcept [.rax, .rdx] machine next) :
    Computes (lines ++ takeRemainder) machine result := by
  refine ⟨next.setRegister .rax (next.registers .rdx), ?_, ?_, same.setRegister (by simp) _⟩
  · refine executeAll_append_of done ?_
    rw [takeRemainder, executeAll_singleton, execute, read_full]
    exact write_full next .rax _
  · rw [registers_setRegister_self, correct]

/-! ### Every operation -/

/-- **An operation on extended values has the result of the operation in its low bits.** -/
theorem computes_operationLines {operation : BinaryOp} {lines : List Line}
    (code : operationLines operation = some lines) (narrow : bits ≤ 64)
    (computed : operation.evaluate first second = some result)
    (left : machine.registers .rax = extended operation.isSigned first)
    (right : machine.registers .rcx = extended operation.isSigned second) :
    Computes lines machine result := by
  have one := setWidth_extended narrow operation.isSigned first
  have other := setWidth_extended narrow operation.isSigned second
  rw [← left] at one
  rw [← right] at other
  have readLeft := read_full machine .rax
  have readRight := read_full machine .rcx
  have divisor : second ≠ 0 → machine.registers .rcx ≠ 0 := by
    intro nonzero zero
    rw [zero] at other
    exact nonzero (other.symm.trans (BitVec.setWidth_zero bits 64))
  cases operation
  case add =>
    obtain rfl := Option.some.inj code
    obtain rfl := Option.some.inj computed
    refine computes_onRegisters (machine.registers .rax + machine.registers .rcx)
      (some (.ofAddition (machine.registers .rax) (machine.registers .rcx))) ?_ ?_
    · rw [arithmetic, readLeft, readRight]
      exact writeResult_full machine .rax _ _
    · rw [BitVec.setWidth_add _ _ narrow, one, other]
  case sub =>
    obtain rfl := Option.some.inj code
    obtain rfl := Option.some.inj computed
    refine computes_onRegisters (machine.registers .rax - machine.registers .rcx)
      (some (.ofSubtraction (machine.registers .rax) (machine.registers .rcx))) ?_ ?_
    · rw [arithmetic, readLeft, readRight]
      exact writeResult_full machine .rax _ _
    · rw [BitVec.sub_eq_add_neg, BitVec.setWidth_add _ _ narrow, BitVec.setWidth_neg_of_le narrow,
        one, other, ← BitVec.sub_eq_add_neg]
  case mul =>
    obtain rfl := Option.some.inj code
    obtain rfl := Option.some.inj computed
    refine computes_onRegisters (machine.registers .rax * machine.registers .rcx) none ?_ ?_
    · rw [arithmetic, readLeft, readRight]
      exact writeResult_full machine .rax _ _
    · rw [BitVec.setWidth_mul _ _ narrow, one, other]
  case and =>
    obtain rfl := Option.some.inj code
    obtain rfl := Option.some.inj computed
    refine computes_onRegisters (machine.registers .rax &&& machine.registers .rcx)
      (some (.ofLogic (machine.registers .rax &&& machine.registers .rcx))) ?_ ?_
    · rw [arithmetic, readLeft, readRight]
      exact writeResult_full machine .rax _ _
    · rw [BitVec.setWidth_and, one, other]
  case or =>
    obtain rfl := Option.some.inj code
    obtain rfl := Option.some.inj computed
    refine computes_onRegisters (machine.registers .rax ||| machine.registers .rcx)
      (some (.ofLogic (machine.registers .rax ||| machine.registers .rcx))) ?_ ?_
    · rw [arithmetic, readLeft, readRight]
      exact writeResult_full machine .rax _ _
    · rw [BitVec.setWidth_or, one, other]
  case xor =>
    obtain rfl := Option.some.inj code
    obtain rfl := Option.some.inj computed
    refine computes_onRegisters (machine.registers .rax ^^^ machine.registers .rcx)
      (some (.ofLogic (machine.registers .rax ^^^ machine.registers .rcx))) ?_ ?_
    · rw [arithmetic, readLeft, readRight]
      exact writeResult_full machine .rax _ _
    · rw [BitVec.setWidth_xor, one, other]
  case shl =>
    obtain rfl := Option.some.inj code
    rw [BinaryOp.evaluate] at computed
    split at computed
    case isFalse => cases computed
    case isTrue small =>
      obtain rfl := Option.some.inj computed
      refine computes_shiftRegister (machine.registers .rax <<< second.toNat)
        (shiftCount_extended narrow small _ right) rfl ?_
      rw [BitVec.setWidth_shiftLeft_of_le narrow, one]
  case lshr =>
    obtain rfl := Option.some.inj code
    rw [BinaryOp.evaluate] at computed
    split at computed
    case isFalse => cases computed
    case isTrue small =>
      obtain rfl := Option.some.inj computed
      refine computes_shiftRegister (machine.registers .rax >>> second.toNat)
        (shiftCount_extended narrow small _ right) rfl ?_
      have same : machine.registers .rax >>> second.toNat =
          extended false (first >>> second.toNat) := by
        rw [left]
        refine BitVec.eq_of_toNat_eq ?_
        rw [toNat_extended narrow, BitVec.toNat_ushiftRight, BitVec.toNat_ushiftRight]
        exact congrArg (· >>> second.toNat) (toNat_extended narrow first)
      rw [same, setWidth_extended narrow]
  case ashr =>
    obtain rfl := Option.some.inj code
    rw [BinaryOp.evaluate] at computed
    split at computed
    case isFalse => cases computed
    case isTrue small =>
      obtain rfl := Option.some.inj computed
      refine computes_shiftRegister ((machine.registers .rax).sshiftRight second.toNat)
        (shiftCount_extended narrow small _ right) rfl ?_
      have same : (machine.registers .rax).sshiftRight second.toNat =
          extended true (first.sshiftRight second.toNat) := by
        rw [left]
        refine BitVec.eq_of_toInt_eq ?_
        rw [toInt_extended narrow, BitVec.toInt_sshiftRight, BitVec.toInt_sshiftRight]
        exact congrArg (fun value : Int => value >>> second.toNat) (toInt_extended narrow first)
      rw [same, setWidth_extended narrow]
  case udiv =>
    obtain rfl := Option.some.inj code
    rw [BinaryOp.evaluate] at computed
    split at computed
    case isTrue => cases computed
    case isFalse nonzero =>
      obtain rfl := Option.some.inj computed
      obtain ⟨next, done, quotient, _, same⟩ :=
        executeAll_divideRegisters_unsigned (divisor nonzero)
      refine ⟨next, done, ?_, same⟩
      rw [quotient, left, right]
      have extends' : extended false first / extended false second =
          extended false (first / second) := by
        refine BitVec.eq_of_toNat_eq ?_
        rw [toNat_extended narrow, BitVec.toNat_udiv, BitVec.toNat_udiv, toNat_extended narrow,
          toNat_extended narrow]
      exact (congrArg _ extends').trans (setWidth_extended narrow false _)
  case urem =>
    obtain rfl := Option.some.inj code
    rw [BinaryOp.evaluate] at computed
    split at computed
    case isTrue => cases computed
    case isFalse nonzero =>
      obtain rfl := Option.some.inj computed
      obtain ⟨next, done, _, remainder, same⟩ :=
        executeAll_divideRegisters_unsigned (divisor nonzero)
      refine computes_takeRemainder done ?_ same
      rw [remainder, left, right]
      have extends' : extended false first % extended false second =
          extended false (first % second) := by
        refine BitVec.eq_of_toNat_eq ?_
        rw [toNat_extended narrow, BitVec.toNat_umod, BitVec.toNat_umod, toNat_extended narrow,
          toNat_extended narrow]
      exact (congrArg _ extends').trans (setWidth_extended narrow false _)
  case sdiv =>
    obtain rfl := Option.some.inj code
    rw [BinaryOp.evaluate] at computed
    split at computed
    case isTrue => cases computed
    case isFalse defined =>
      obtain rfl := Option.some.inj computed
      rw [not_or] at defined
      obtain ⟨next, done, quotient, _, same⟩ :=
        executeAll_divideRegisters_signed narrow left right defined.1 defined.2
      refine ⟨next, done, ?_, same⟩
      rw [quotient, setWidth_extended narrow]
  case srem =>
    obtain rfl := Option.some.inj code
    rw [BinaryOp.evaluate] at computed
    split at computed
    case isTrue => cases computed
    case isFalse defined =>
      obtain rfl := Option.some.inj computed
      rw [not_or] at defined
      obtain ⟨next, done, _, remainder, same⟩ :=
        executeAll_divideRegisters_signed narrow left right defined.1 defined.2
      refine computes_takeRemainder done ?_ same
      rw [remainder, setWidth_extended narrow]
  all_goals cases computed

end Asm

end SsaAmd64
