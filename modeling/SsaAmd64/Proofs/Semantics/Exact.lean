/-
**Integer operations as arithmetic.**

Bits stand for a number, and their signed reading for an integer. Operations are those of arithmetic;
a machine keeps as many low bits of the result as there is room for.

* `signedReading`: the signed reading of a number of some bits;
* `BinaryOp.exact`, `Predicate.exact`, `Conversion.exact`: what operations give, as integers;
* `BinaryOp.evaluate_of_exact`, `Predicate.holds_eq_exact`: patterns of bits are the low bits of it.
-/

import Mathlib.Algebra.Group.Int.Defs
import Mathlib.Algebra.Group.Nat.Defs
import SsaAmd64.Proofs.Semantics.Integer

namespace SsaAmd64

variable {bits first second number : Nat}

/-! ### Readings -/

/-- **The signed reading of a number of some bits**, in two's complement. A bit is minus the number,
whatever the byte that it is kept in holds. -/
def signedReading (bits number : Nat) : Int :=
  if bits = 1 then -number else (number : Int).bmod (patternCount bits)

/-- A number by its sign, or as it is. -/
def readingOf (signed : Bool) (bits number : Nat) : Int :=
  if signed then signedReading bits number else number

theorem signedReading_eq (fits : number < patternCount bits) :
    signedReading bits number = (number : Int).bmod (patternCount bits) := by
  by_cases bit : bits = 1
  · subst bit
    have range : patternCount 1 = 2 := rfl
    rw [range] at fits ⊢
    obtain rfl | rfl : number = 0 ∨ number = 1 := by omega
    · rfl
    · rfl
  · exact if_neg bit

theorem toInt_ofNat_eq (fits : number < 2 ^ bits) :
    (BitVec.ofNat bits number).toInt = signedReading bits number := by
  rw [signedReading_eq fits, BitVec.toInt_ofNat']
  rfl

theorem toNat_ofNat_eq (fits : number < 2 ^ bits) : (BitVec.ofNat bits number).toNat = number := by
  rw [BitVec.toNat_ofNat, Nat.mod_eq_of_lt fits]

/-! ### Operations -/

/-- The quotient of signed numbers and the remainder have no meaning if there is no quotient, or none
that fits. -/
def lacksQuotient (bits first second : Nat) : Prop :=
  second = 0 ∨ 2 ^ (bits - 1) ≤ (signedReading bits first).tdiv (signedReading bits second)

instance (bits first second : Nat) : Decidable (lacksQuotient bits first second) :=
  inferInstanceAs (Decidable (_ ∨ _))

/-- **The result of an operation on numbers of some bits**, as an integer of any size, where it has
one. Quotients are rounded towards zero, and shifts to the right downwards. -/
def BinaryOp.exact (bits first second : Nat) : BinaryOp → Option Int
  | .add => some (first + second)
  | .sub => some (first - second)
  | .mul => some (first * second)
  | .and => some (first &&& second : Nat)
  | .or => some (first ||| second : Nat)
  | .xor => some (first ^^^ second : Nat)
  | .udiv => if second = 0 then none else some (first / second : Nat)
  | .urem => if second = 0 then none else some (first % second : Nat)
  | .sdiv =>
    if lacksQuotient bits first second then none
    else some ((signedReading bits first).tdiv (signedReading bits second))
  | .srem =>
    if lacksQuotient bits first second then none
    else some ((signedReading bits first).tmod (signedReading bits second))
  | .shl => if second < bits then some (first * 2 ^ second : Nat) else none
  | .lshr => if second < bits then some (first / 2 ^ second : Nat) else none
  | .ashr => if second < bits then some (signedReading bits first / 2 ^ second) else none
  | .fadd | .fsub | .fmul | .fdiv | .frem => none

/-- Whether a comparison of integers comes out true. -/
def Predicate.relates (first second : Int) : Predicate → Bool
  | .eq => first = second
  | .neq => first ≠ second
  | .ugt | .sgt => second < first
  | .uge | .sge => second ≤ first
  | .ult | .slt => first < second
  | .ule | .sle => first ≤ second

/-- **Whether a comparison of numbers of some bits comes out true.** -/
def Predicate.exact (bits first second : Nat) (predicate : Predicate) : Bool :=
  predicate.relates (readingOf predicate.isSigned bits first)
    (readingOf predicate.isSigned bits second)

/-- **The integer that a conversion of a number of some bits keeps the low bits of.** -/
def Conversion.exact (bits number : Nat) : Conversion → Option Int
  | .sext => some (signedReading bits number)
  | .zext | .trunc | .bitcast | .ptrtoint | .inttoptr => some number
  | _ => none

/-! ### Patterns of bits -/

section Patterns

variable (one : first < 2 ^ bits) (two : second < 2 ^ bits)

include one two

omit one in
theorem ofNat_ne_zero (nonzero : second ≠ 0) : BitVec.ofNat bits second ≠ 0 := by
  intro zero
  refine nonzero ?_
  rw [← toNat_ofNat_eq two, zero]
  exact BitVec.toNat_ofNat 0 bits

/-- Signed numbers with a quotient that fits. -/
theorem not_overflows (positive : 0 < bits) (quotient : ¬lacksQuotient bits first second) :
    BitVec.ofNat bits second ≠ 0 ∧
      ¬BinaryOp.Overflows (BitVec.ofNat bits first) (BitVec.ofNat bits second) := by
  rw [lacksQuotient, not_or, ← toInt_ofNat_eq one, ← toInt_ofNat_eq two] at quotient
  obtain ⟨nonzero, fits⟩ := quotient
  refine ⟨ofNat_ne_zero two nonzero, fun overflows => fits (Int.le_of_eq ?_)⟩
  rw [overflows.1, overflows.2, BitVec.toInt_intMin_of_pos positive, BitVec.toInt_allOnes,
    if_pos positive, Int.tdiv_neg, Int.tdiv_one, Int.neg_neg]

/-- **The low bits of the result of an operation are the result on the bits.** -/
theorem BinaryOp.evaluate_of_exact {operation : BinaryOp} {result : Int} (positive : 0 < bits)
    (known : operation.exact bits first second = some result) :
    operation.evaluate (BitVec.ofNat bits first) (BitVec.ofNat bits second) =
      some (BitVec.ofInt bits result) := by
  have left := toNat_ofNat_eq one
  have right := toNat_ofNat_eq two
  cases operation
  case add =>
    obtain rfl := Option.some.inj known
    rw [BitVec.ofInt_add, BitVec.ofInt_natCast, BitVec.ofInt_natCast]
    rfl
  case sub =>
    obtain rfl := Option.some.inj known
    rw [Int.sub_eq_add_neg, BitVec.ofInt_add, BitVec.ofInt_neg, BitVec.ofInt_natCast,
      BitVec.ofInt_natCast, ← BitVec.sub_eq_add_neg]
    rfl
  case mul =>
    obtain rfl := Option.some.inj known
    rw [BitVec.ofInt_mul, BitVec.ofInt_natCast, BitVec.ofInt_natCast]
    rfl
  case and =>
    obtain rfl := Option.some.inj known
    rw [BitVec.ofInt_natCast, BitVec.ofNat_and]
    rfl
  case or =>
    obtain rfl := Option.some.inj known
    rw [BitVec.ofInt_natCast, BitVec.ofNat_or]
    rfl
  case xor =>
    obtain rfl := Option.some.inj known
    rw [BitVec.ofInt_natCast, BitVec.ofNat_xor]
    rfl
  case udiv =>
    obtain ⟨nonzero, done⟩ := Option.ite_none_left_eq_some.mp known
    obtain rfl := Option.some.inj done
    rw [evaluate, if_neg (ofNat_ne_zero two nonzero), BitVec.ofInt_natCast]
    refine congrArg some (BitVec.eq_of_toNat_eq ?_)
    rw [BitVec.toNat_udiv, left, right, toNat_ofNat_eq]
    exact Nat.lt_of_le_of_lt (Nat.div_le_self _ _) one
  case urem =>
    obtain ⟨nonzero, done⟩ := Option.ite_none_left_eq_some.mp known
    obtain rfl := Option.some.inj done
    rw [evaluate, if_neg (ofNat_ne_zero two nonzero), BitVec.ofInt_natCast]
    refine congrArg some (BitVec.eq_of_toNat_eq ?_)
    rw [BitVec.toNat_umod, left, right, toNat_ofNat_eq]
    exact Nat.lt_of_le_of_lt (Nat.mod_le _ _) one
  case sdiv =>
    obtain ⟨quotient, done⟩ := Option.ite_none_left_eq_some.mp known
    obtain rfl := Option.some.inj done
    obtain ⟨nonzero, fits⟩ := not_overflows one two positive quotient
    have ordinary : BitVec.ofNat bits first ≠ BitVec.intMin bits ∨
        BitVec.ofNat bits second ≠ -BitVec.ofNat bits 1 := by
      rw [BitVec.neg_one_eq_allOnes]
      exact Decidable.not_and_iff_or_not.mp fits
    rw [evaluate, if_neg (not_or.mpr ⟨nonzero, fits⟩), ← toInt_ofNat_eq one,
      ← toInt_ofNat_eq two, ← BitVec.toInt_sdiv_of_ne_or_ne _ _ ordinary, BitVec.ofInt_toInt]
  case srem =>
    obtain ⟨quotient, done⟩ := Option.ite_none_left_eq_some.mp known
    obtain rfl := Option.some.inj done
    rw [evaluate, if_neg (not_or.mpr (not_overflows one two positive quotient)),
      ← toInt_ofNat_eq one, ← toInt_ofNat_eq two, ← BitVec.toInt_srem, BitVec.ofInt_toInt]
  case shl =>
    obtain ⟨few, done⟩ := Option.ite_none_right_eq_some.mp known
    obtain rfl := Option.some.inj done
    rw [evaluate, right, if_pos few, BitVec.ofInt_natCast]
    refine congrArg some (BitVec.eq_of_toNat_eq ?_)
    rw [BitVec.toNat_shiftLeft, left, Nat.shiftLeft_eq, BitVec.toNat_ofNat]
  case lshr =>
    obtain ⟨few, done⟩ := Option.ite_none_right_eq_some.mp known
    obtain rfl := Option.some.inj done
    rw [evaluate, right, if_pos few, BitVec.ofInt_natCast]
    refine congrArg some (BitVec.eq_of_toNat_eq ?_)
    rw [BitVec.toNat_ushiftRight, left, Nat.shiftRight_eq_div_pow, toNat_ofNat_eq]
    exact Nat.lt_of_le_of_lt (Nat.div_le_self _ _) one
  case ashr =>
    obtain ⟨few, done⟩ := Option.ite_none_right_eq_some.mp known
    obtain rfl := Option.some.inj done
    rw [evaluate, right, if_pos few, BitVec.sshiftRight, toInt_ofNat_eq one,
      Int.shiftRight_eq_div_pow]
    norm_cast
  all_goals cases known

/-- **Comparing bits compares their readings.** -/
theorem Predicate.holds_eq_exact (predicate : Predicate) :
    predicate.holds (BitVec.ofNat bits first) (BitVec.ofNat bits second) =
      predicate.exact bits first second := by
  have left := toNat_ofNat_eq one
  have right := toNat_ofNat_eq two
  have left' := toInt_ofNat_eq one
  have right' := toInt_ofNat_eq two
  have same : BitVec.ofNat bits first = BitVec.ofNat bits second ↔ (first : Int) = second := by
    rw [← BitVec.toNat_inj, left, right, Int.ofNat_inj]
  cases predicate <;>
    simp [Predicate.holds, Predicate.exact, Predicate.relates, Predicate.isSigned, readingOf,
      BitVec.lt_def, BitVec.le_def, BitVec.slt_eq_decide, BitVec.sle_eq_decide, left, right, left',
      right', same]

end Patterns

/-- A conversion between integers keeps low bits. -/
theorem Conversion.exact_of_evaluate {conversion : Conversion} {target : Nat}
    {result : BitVec target} (fits : number < 2 ^ bits)
    (evaluated : conversion.evaluate target (BitVec.ofNat bits number) = some result) :
    ∃ value, conversion.exact bits number = some value ∧ BitVec.ofInt target value = result := by
  cases conversion
  case sext =>
    obtain rfl := Option.some.inj evaluated
    exact ⟨_, rfl, by rw [BitVec.signExtend, toInt_ofNat_eq fits]⟩
  case zext | trunc =>
    obtain rfl := Option.some.inj evaluated
    refine ⟨number, rfl, BitVec.eq_of_toNat_eq ?_⟩
    rw [BitVec.ofInt_natCast, BitVec.toNat_ofNat, BitVec.toNat_setWidth, toNat_ofNat_eq fits]
  all_goals cases evaluated

end SsaAmd64
