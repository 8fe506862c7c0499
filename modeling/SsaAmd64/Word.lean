/-
**Bits and words.**

Sizes and offsets are natural numbers; in code they are read as signed words of 64 bits.

* `patternCount`: how many patterns some bits have;
* `signed64`: the signed reading of a word;
* `bmod_eq_of_lt`: the signed reading of a number of any bits.
-/

namespace SsaAmd64

/-- The number of patterns of some bits. -/
def patternCount (bits : Nat) : Nat :=
  Nat.pow 2 bits

theorem patternCount_pos (bits : Nat) : 0 < patternCount bits :=
  Nat.pow_pos Nat.two_pos

@[simp] theorem patternCount_zero : patternCount 0 = 1 := rfl

theorem patternCount_add (first second : Nat) :
    patternCount (first + second) = patternCount first * patternCount second :=
  Nat.pow_add 2 first second

/-- The signed reading of the low 64 bits of a number. -/
def signed64 (value : Int) : Int :=
  value.bmod (patternCount 64)

/-- The signed reading of a number of some bits. -/
theorem bmod_eq_of_lt {bits value : Nat} (positive : 0 < bits)
    (inRange : value < patternCount bits) : (value : Int).bmod (patternCount bits) =
      if value.testBit (bits - 1) then (value : Int) - patternCount bits else value := by
  have last : bits - 1 < bits := Nat.sub_one_lt_of_lt positive
  have sign : (BitVec.ofNat bits value).msb = value.testBit (bits - 1) := by
    rw [BitVec.msb_eq_getLsbD_last, BitVec.getLsbD_ofNat, decide_eq_true last, Bool.true_and]
  have reading := (BitVec.ofNat bits value).toInt_eq_msb_cond
  rw [BitVec.toInt_ofNat', sign, BitVec.toNat_ofNat,
    Nat.mod_eq_of_lt (show value < 2 ^ bits from inRange)] at reading
  exact reading

/-- Whether a constant can be written into an instruction that sign-extends 32 bits. -/
def fits32 (value : Int) : Bool :=
  -0x80000000 ≤ value && value < 0x80000000

theorem fits32_iff {value : Int} :
    fits32 value = true ↔ -0x80000000 ≤ value ∧ value < 0x80000000 := by
  rw [fits32, Bool.and_eq_true, decide_eq_true_iff, decide_eq_true_iff]

theorem signed64_of_small (value : Int) (low : -0x8000000000000000 ≤ value)
    (high : value < 0x8000000000000000) : signed64 value = value := by
  have range : patternCount 64 = 0x10000000000000000 := by decide
  unfold signed64
  rw [Int.bmod_def, range]
  omega

end SsaAmd64
