/-
**Little-endian bytes.**

* `Bytes.length_ofNat`: the image has the requested number of bytes;
* `Bytes.toNat_ofNat`: reading the image gives the number modulo its range.
-/

import SsaAmd64.Word

namespace SsaAmd64

namespace Bytes

/-- The low `count` bytes of a number, lowest first. -/
def ofNat : (count value : Nat) → List UInt8
  | 0, _ => []
  | count + 1, value => UInt8.ofNat value :: ofNat count (value / 256)

/-- The number whose bytes are given lowest first. -/
def toNat : List UInt8 → Nat
  | [] => 0
  | byte :: bytes => byte.toNat + 256 * toNat bytes

/-- The first `count` bytes, filled up with zeros. -/
def resize (count : Nat) (bytes : List UInt8) : List UInt8 :=
  bytes.take count ++ List.replicate (count - bytes.length) 0

@[simp] theorem length_ofNat (count value : Nat) : (ofNat count value).length = count := by
  induction count generalizing value with
  | zero => rfl
  | succ count ih => simp [ofNat, ih]

theorem toNat_ofNat (count value : Nat) :
    toNat (ofNat count value) = value % patternCount (8 * count) := by
  induction count generalizing value with
  | zero => simp [ofNat, toNat, Nat.mod_one]
  | succ count ih =>
    have range : patternCount (8 * (count + 1)) = 256 * patternCount (8 * count) := by
      rw [Nat.mul_succ, Nat.add_comm, patternCount_add]
      rfl
    rw [range, Nat.mod_mul, ofNat, toNat, ih, UInt8.toNat_ofNat']

@[simp] theorem length_resize (count : Nat) (bytes : List UInt8) :
    (resize count bytes).length = count := by
  simp [resize]
  omega

end Bytes

end SsaAmd64
