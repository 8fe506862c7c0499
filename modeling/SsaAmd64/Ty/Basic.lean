/-
**Types.**

A type is a plain value, built where it is needed and compared by structure. Integers carry a width
and no sign: signedness belongs to the operations.

* `Ty.same_iff`: the structural comparison decides equality;
* `Ty.ofWidth`, `Ty.pointerTo`, `Ty.arrayOf`, `Signature.of`: the checked constructors, with the
  reason of a refusal in `Ty.Refusal`.
-/

namespace SsaAmd64

/-- The two binary floating-point formats. -/
inductive FloatFormat where
  | single
  | double
deriving DecidableEq

namespace FloatFormat

/-- Width of a format in bits. -/
def width : FloatFormat → Nat
  | single => 32
  | double => 64

/-- A format extends to every wider one. -/
def extendsTo (source target : FloatFormat) : Bool :=
  source.width < target.width

/-- A format truncates to every narrower one. -/
def truncatesTo (source target : FloatFormat) : Bool :=
  target.width < source.width

end FloatFormat

/-- Types of values, of functions and of blocks. -/
inductive Ty where
  /-- An integer of the given width in bits. -/
  | int (width : Nat)
  | float (format : FloatFormat)
  | pointer (element : Ty)
  | array (length : Nat) (element : Ty)
  /-- Fields in declaration order. -/
  | struct (packed : Bool) (fields : List Ty)
  | function (result : Ty) (parameters : List Ty) (variadic : Bool)
  /-- The type of a block. -/
  | label
  /-- The type of what yields no value. -/
  | void
deriving Inhabited

namespace Ty

/-! ### Structural equality -/

mutual

/-- Whether two types are built alike. -/
def same : Ty → Ty → Bool
  | int width, int width' => width == width'
  | float format, float format' => format == format'
  | pointer element, pointer element' => same element element'
  | array length element, array length' element' => length == length' && same element element'
  | struct packed fields, struct packed' fields' => packed == packed' && sameAll fields fields'
  | function result parameters variadic, function result' parameters' variadic' =>
    same result result' && sameAll parameters parameters' && variadic == variadic'
  | label, label => true
  | void, void => true
  | _, _ => false

/-- Whether two lists hold the same types in the same order. -/
def sameAll : List Ty → List Ty → Bool
  | [], [] => true
  | type :: types, type' :: types' => same type type' && sameAll types types'
  | _, _ => false

end

mutual

theorem same_iff (first second : Ty) : same first second = true ↔ first = second := by
  cases first <;> cases second <;>
    simp [same, same_iff, sameAll_iff, and_assoc]

theorem sameAll_iff (first second : List Ty) : sameAll first second = true ↔ first = second := by
  cases first <;> cases second <;> simp [sameAll, same_iff, sameAll_iff]

end

instance : DecidableEq Ty := fun first second =>
  decidable_of_iff (same first second = true) (same_iff first second)

/-! ### Kinds of types -/

/-- Values of a first-class type exist at run time: all but `void` and function types. -/
def isFirstClass : Ty → Bool
  | void => false
  | function .. => false
  | _ => true

def isVoid : Ty → Bool
  | void => true
  | _ => false

def isInt : Ty → Bool
  | int _ => true
  | _ => false

def isFloat : Ty → Bool
  | float _ => true
  | _ => false

def isPointer : Ty → Bool
  | pointer _ => true
  | _ => false

/-- Arrays and structs. -/
def isAggregate : Ty → Bool
  | array .. => true
  | struct .. => true
  | _ => false

def width? : Ty → Option Nat
  | int width => some width
  | _ => none

def format? : Ty → Option FloatFormat
  | float format => some format
  | _ => none

/-- What a pointer points to. -/
def pointee? : Ty → Option Ty
  | pointer element => some element
  | _ => none

end Ty

/-- What a function takes and gives back. -/
structure Signature where
  parameters : List Ty
  result : Ty
  /-- Whether arguments beyond the parameters are allowed. -/
  variadic : Bool

/-- The type of a function with this signature. -/
def Signature.type (signature : Signature) : Ty :=
  .function signature.result signature.parameters signature.variadic

namespace Ty

def signature? : Ty → Option Signature
  | function result parameters variadic => some ⟨parameters, result, variadic⟩
  | _ => none

/-! ### Checked construction -/

/-- The widest integer a type may declare. -/
def maxWidth : Nat := 0x7fffffff

/-- The longest array a type may declare. -/
def maxLength : Nat := maxWidth

/-- Why a type could not be built. -/
inductive Refusal where
  | tooWide
  | voidPointer
  | voidElement
  | tooLong
  | voidParameter
deriving DecidableEq

/-- The report of a refusal. -/
def Refusal.message : Refusal → String
  | tooWide => "Type::int: width > MAX_INT_WIDTH"
  | voidPointer => "Type::pointer: element cannot be void"
  | voidElement => "Type::array: element cannot be void"
  | tooLong => "Type::array: length > MAX_ARRAY_LENGTH"
  | voidParameter => "Signature::new: parameters cannot be void"

def ofWidth (width : Nat) : Except Refusal Ty :=
  if width ≤ maxWidth then .ok (int width) else .error .tooWide

def pointerTo (element : Ty) : Except Refusal Ty :=
  if element.isVoid then .error .voidPointer else .ok (pointer element)

/-- A void element is reported before an excessive length. -/
def arrayOf (length : Nat) (element : Ty) : Except Refusal Ty :=
  if element.isVoid then .error .voidElement
  else if length ≤ maxLength then .ok (array length element) else .error .tooLong

end Ty

def Signature.of (parameters : List Ty) (result : Ty) (variadic : Bool) :
    Except Ty.Refusal Signature :=
  if parameters.any Ty.isVoid then .error .voidParameter else .ok ⟨parameters, result, variadic⟩

end SsaAmd64
