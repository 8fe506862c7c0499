/-
**Memory and addresses.**

Storage in the frame, loads and stores through a pointer, and address computations. Constant parts
of an address are added up and added once at the end; an index that is known only at run time is
scaled and added as it comes.
-/

import SsaAmd64.Lowering.Arithmetic

namespace SsaAmd64

namespace Lowering

open Asm

/-- The code of an `alloc`: the address of its storage. -/
def alloc (lowering : Lowering) (instruction : ValueId) : Except Failure (List Line) := do
  match lowering.frame.storage? instruction with
  | some displacement =>
    return .lea (.memory .rbp displacement) .rax ::
      (← lowering.storeRegister .rax instruction)
  | none => unsupported (.allocWithoutStorage instruction)

/-- The code of a load. -/
def load (lowering : Lowering) (instruction : ValueId) : Except Failure (List Line) := do
  let pointer ← lowering.operand instruction 0
  let size ← lowering.sizeOf instruction
  let displacement ← lowering.slot instruction
  return (← lowering.loadInt pointer .r11 false) ++ copyMemory .r11 0 .rbp displacement size

/-- The code of a store. -/
def store (lowering : Lowering) (instruction : ValueId) : Except Failure (List Line) := do
  let pointer ← lowering.operand instruction 0
  let value ← lowering.operand instruction 1
  let size ← lowering.sizeOf value
  return (← lowering.loadInt pointer .r11 false) ++ (← lowering.copyTo value .r11 0 size)

/-! ### Addresses -/

/-- The signed reading of an integer literal at its width, as a word. -/
def signedIndex (width value : Nat) : Int :=
  signed64 ((value : Int).bmod (patternCount (min (max width 1) 128)))

/-- The index that a literal stands for. -/
def constantIndex? : Source → Option Int
  | .literal (.int width value _) => some (signedIndex width value)
  | _ => none

/-- Adds an index known at run time, scaled by a stride, to `%rax`. -/
def addScaled (lowering : Lowering) (index : ValueId) (stride : Int) :
    Except Failure (List Line) := do
  let load ← lowering.loadInt index .rcx true
  let scaled : List Line :=
    if stride = 1 then []
    else if fits32 stride then [.scale stride .rcx .rcx]
    else [.movabs stride .rdx, .arithmetic .imul .quad (.full .rdx) (.full .rcx)]
  return load ++ scaled ++ onRegisters .add

/-- What an index does to an address: code to run, a constant to add, and the type it leads to. -/
structure AddressStep where
  lines : List Line
  constant : Int
  type : Ty

/-- An index through a pointer or into an array. -/
def elementStep (lowering : Lowering) (index : ValueId) (constant : Option Int) (element : Ty) :
    Except Failure AddressStep := do
  let stride := signed64 (← element.extentInCode).stride
  match constant with
  | some value => return ⟨[], signed64 (value * stride), element⟩
  | none => return ⟨← lowering.addScaled index stride, 0, element⟩

/-- An index into a struct, which has to be a constant that names a field. -/
def fieldStep (instruction : ValueId) (constant : Option Int) (packed : Bool) (fields : List Ty) :
    Except Failure AddressStep := do
  match constant with
  | some value =>
    if value < 0 then unsupported (.structIndex instruction)
    match fields[value.toNat]? with
    | some field =>
      let offset ← (fieldOffset packed fields value.toNat).mapError .layout
      return ⟨[], signed64 offset, field⟩
    | none => unsupported (.structIndex instruction)
  | none => unsupported (.structIndex instruction)

/-- What an index does to an address of a type. -/
def addressStep (lowering : Lowering) (instruction index : ValueId) (type : Ty) :
    Except Failure AddressStep := do
  let constant := constantIndex? (← lowering.source index)
  match type with
  | .pointer element => lowering.elementStep index constant element
  | .array _ element => lowering.elementStep index constant element
  | .struct packed fields => fieldStep instruction constant packed fields
  | other => unsupported (.addressThrough other instruction)

/-- The code that the indices ask for and the sum of their constants, starting from a sum. -/
def addressSteps (lowering : Lowering) (instruction : ValueId) (type : Ty) (sum : Int) :
    List ValueId → Except Failure (List Line × Int)
  | [] => .ok ([], sum)
  | index :: indices => do
    let step ← lowering.addressStep instruction index type
    let (lines, total) ← lowering.addressSteps instruction step.type
      (signed64 (sum + step.constant)) indices
    return (step.lines ++ lines, total)

/-- Adds a constant to `%rax`, by way of a register if it is too wide. -/
def addConstant (value : Int) : List Line :=
  if value = 0 then []
  else if fits32 value then [.arithmetic .add .quad (.immediate value) (.full .rax)]
  else [.movabs value .rcx, .arithmetic .add .quad (.full .rcx) (.full .rax)]

/-- The code of an address computation. -/
def gep (lowering : Lowering) (instruction : ValueId) : Except Failure (List Line) := do
  let base ← lowering.operand instruction 0
  let load ← lowering.loadInt base .rax false
  let (steps, constant) ← lowering.addressSteps instruction (lowering.subject.typeOf base) 0
    (lowering.trailingValues instruction)
  return load ++ steps ++ addConstant constant ++ (← lowering.storeRegister .rax instruction)

end Lowering

end SsaAmd64
