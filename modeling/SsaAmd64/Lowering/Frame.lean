/-
**Stack frames.**

Every parameter and every value of a function has a home slot below `%rbp`, and every `alloc` has
storage there as well. Slots are handed out in the order of declaration, each aligned to its type.

    32(%rbp)   incoming stack arguments
    24(%rbp)   return address
    16(%rbp)   saved %rbp
     8(%rbp)   saved %rbx
     0(%rbp)   saved %r15
    -n(%rbp)   slots

* `Frame.of`: the frame of a function;
* `Frame.size`: the bytes to reserve, a multiple of sixteen.
-/

import SsaAmd64.Lowering.Failure
import SsaAmd64.Word

namespace SsaAmd64

structure Frame where
  /-- Displacements of the home slots from `%rbp`. -/
  slots : List (ValueId × Int)
  /-- Displacements of the storage of `alloc` instructions from `%rbp`. -/
  storage : List (ValueId × Int)
  /-- Bytes handed out. -/
  depth : Nat

namespace Frame

def empty : Frame := ⟨[], [], 0⟩

/-- Displacement of the first incoming stack argument from `%rbp`. -/
def incomingArguments : Int := 32

def slot? (frame : Frame) (id : ValueId) : Option Int :=
  frame.slots.lookup id

def storage? (frame : Frame) (id : ValueId) : Option Int :=
  frame.storage.lookup id

/-- Bytes to reserve below the saved registers. -/
def size (frame : Frame) : Nat :=
  roundUp frame.depth 16

/-- The displacement of the lowest byte at a depth. -/
def displacement (depth : Nat) : Int :=
  signed64 (-(depth : Int))

/-- The depth after an object of an extent. -/
def deepen (frame : Frame) (extent : Extent) : Nat :=
  roundUp (frame.depth + extent.size) extent.align

/-- Hands out the home slot of a value. -/
def addSlot (frame : Frame) (id : ValueId) (extent : Extent) : Frame :=
  let depth := frame.deepen extent
  { frame with slots := frame.slots ++ [(id, displacement depth)], depth }

/-- Hands out the storage of an `alloc`. -/
def addStorage (frame : Frame) (id : ValueId) (extent : Extent) : Frame :=
  let depth := frame.deepen extent
  { frame with storage := frame.storage ++ [(id, displacement depth)], depth }

/-- Hands out home slots to values, and storage to those that are `alloc` instructions. -/
def allocate (m : Module) (frame : Frame) : List ValueId → Except Failure Frame
  | [] => .ok frame
  | id :: ids => do
    let withSlot := frame.addSlot id (← (m.typeOf id).extentInCode)
    match m.opcode? id with
    | some (.alloc storage) =>
      allocate m (withSlot.addStorage id (← storage.extentInCode)) ids
    | _ => allocate m withSlot ids

/-- The values of a function that have home slots, in order. -/
def homes (m : Module) (function : ValueId) : List ValueId :=
  m.parametersOf function ++ (m.bodyOf function).filter m.producesValue

/-- The frame of a function. -/
def of (m : Module) (function : ValueId) : Except Failure Frame :=
  allocate m empty (homes m function)

end Frame

end SsaAmd64
