/-
**Layout of types in memory.**

Sizes, alignments and field offsets. A scalar is aligned to the least power of two that holds it,
an array like its element, a struct like its most aligned field; fields are placed in order, each at
the next multiple of its alignment.

* `Ty.extent`: size and alignment of a type, in one traversal;
* `Ty.size`, `Ty.align`, `Ty.stride`, `structLayout`, `fieldOffset`: what is asked of it.
-/

import SsaAmd64.Ty.Text

namespace SsaAmd64

/-- The least multiple of an alignment that is not below a value. An alignment of zero or one asks
for nothing. -/
def roundUp (value align : Nat) : Nat :=
  if align ≤ 1 then value else (value + align - 1) / align * align

/-- Why a type has no layout. -/
inductive LayoutError where
  | packedStruct (type : Ty)
  | unsupportedWidth (width : Nat)
  | unsized (type : Ty)
deriving DecidableEq

/-- The report of a layout error. -/
def LayoutError.message : LayoutError → String
  | packedStruct type => "Packed structs are not supported: `" ++ type.text ++ "`"
  | unsupportedWidth width =>
    "Unsupported integer width: " ++ toString width ++ " (expected 1 or a multiple of 8 up to 128)"
  | unsized type => "Type `" ++ type.text ++ "` has no size"

/-- What a type takes up in memory. -/
structure Extent where
  size : Nat
  align : Nat
deriving DecidableEq

/-- Distance between neighbours in an array. -/
def Extent.stride (extent : Extent) : Nat :=
  roundUp extent.size extent.align

/-- Placement of the fields of a struct. -/
structure StructLayout where
  size : Nat
  align : Nat
  /-- One offset for each field, in declaration order. -/
  offsets : List Nat
deriving DecidableEq

def StructLayout.extent (layout : StructLayout) : Extent :=
  ⟨layout.size, layout.align⟩

/-- A bit takes a byte; other integers take whole bytes, up to sixteen. -/
def intSize (width : Nat) : Except LayoutError Nat :=
  if width = 1 then .ok 1
  else if width % 8 = 0 ∧ width ≤ 128 ∧ 0 < width then .ok (width / 8)
  else .error (.unsupportedWidth width)

/-- The least power of two, up to sixteen, that is not below a scalar's size. -/
def scalarAlign (size : Nat) : Nat :=
  if size ≤ 1 then 1 else if size ≤ 2 then 2 else if size ≤ 4 then 4 else if size ≤ 8 then 8 else 16

mutual

/-- Size and alignment of a type. -/
def Ty.extent : Ty → Except LayoutError Extent
  | .int width => do
    let size ← intSize width
    return ⟨size, scalarAlign size⟩
  | .float format => .ok ⟨format.width / 8, scalarAlign (format.width / 8)⟩
  | .pointer _ => .ok ⟨8, scalarAlign 8⟩
  | .array length element => do
    let inner ← element.extent
    return ⟨inner.stride * length, inner.align⟩
  | .struct packed fields =>
    if packed then .error (.packedStruct (.struct packed fields))
    else do
      let layout ← placeFields fields 0 1
      return layout.extent
  | .function result parameters variadic =>
    .error (.unsized (.function result parameters variadic))
  | .label => .error (.unsized .label)
  | .void => .error (.unsized .void)

/-- Places the fields that remain, where the fields before them end at `offset` and ask for the
alignment `align`. -/
def placeFields : List Ty → (offset align : Nat) → Except LayoutError StructLayout
  | [], offset, align => .ok ⟨roundUp offset align, align, []⟩
  | field :: fields, offset, align => do
    let extent ← field.extent
    let start := roundUp offset extent.align
    let rest ← placeFields fields (start + extent.size) (max align extent.align)
    return { rest with offsets := start :: rest.offsets }

end

namespace Ty

/-- Storage size in bytes. -/
def size (type : Ty) : Except LayoutError Nat :=
  type.extent.map Extent.size

def align (type : Ty) : Except LayoutError Nat :=
  type.extent.map Extent.align

/-- Distance between consecutive elements of an array of this type. -/
def stride (type : Ty) : Except LayoutError Nat :=
  type.extent.map Extent.stride

end Ty

/-- Placement of the fields of a struct type. -/
def structLayout (packed : Bool) (fields : List Ty) : Except LayoutError StructLayout :=
  if packed then .error (.packedStruct (.struct packed fields)) else placeFields fields 0 1

/-- Offset of one field. A field that does not exist has no place. -/
def fieldOffset (packed : Bool) (fields : List Ty) (field : Nat) : Except LayoutError Nat := do
  let layout ← structLayout packed fields
  match layout.offsets[field]? with
  | some offset => return offset
  | none => .error (.unsized (.struct packed fields))

end SsaAmd64
