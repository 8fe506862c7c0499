/-
**Values.**

Literals, parameters, globals, functions, blocks and instructions are values. All values of a module
live in one arena and name one another by their index in it.

Operand slots of an instruction, by kind:

* `alloc`, `unreachable`: none
* `load`: pointer
* `store`: pointer, value
* `binary`, `compare`: the two operands
* `convert`: value
* `gep`: base, indices
* `call`: callee, arguments
* `br`: target
* `condbr`: condition, target if true, target if false
* `ret`: value, or an empty slot
* `phi`: value and block of each incoming pair
-/

import SsaAmd64.Ir.Opcode
import SsaAmd64.Literal

namespace SsaAmd64

/-- Index of a value in the arena of its module. -/
structure ValueId where
  index : Nat
deriving DecidableEq

def ValueId.text (id : ValueId) : String :=
  "v" ++ toString id.index

/-- An operand slot, which may be empty. -/
abbrev Slot := Option ValueId

structure Parameter where
  function : ValueId
  /-- Position among the parameters of the function. -/
  index : Nat
  type : Ty

/-- How the storage of a global starts out. -/
inductive Initialiser where
  | literal (value : ValueId)
  /-- The address of another global. -/
  | global (value : ValueId)
  | zero
deriving DecidableEq

/-- Storage of the whole program. As a value, a global is a pointer to its storage. -/
structure Global where
  storage : Ty
  initialiser : Initialiser

structure Function where
  signature : Signature
  /-- One value for each parameter of the signature. -/
  parameters : List ValueId
  blocks : List ValueId

/-- The first block. -/
def Function.entry? (function : Function) : Option ValueId :=
  function.blocks.head?

/-- A function without blocks is defined elsewhere. -/
def Function.isPrototype (function : Function) : Bool :=
  function.blocks.isEmpty

structure Block where
  function : ValueId
  instructions : List ValueId

structure Instruction where
  /-- The block that holds the instruction; none once it has been removed. -/
  block : Option ValueId
  opcode : Opcode
  operands : List Slot

namespace Instruction

/-- The value in a slot, if the slot exists and is filled. -/
def operand (instruction : Instruction) (slot : Nat) : Option ValueId :=
  instruction.operands[slot]?.join

/-- The value whose type the type of the result is made from. -/
def origin? (instruction : Instruction) : Option ValueId :=
  if instruction.opcode.isDerived then instruction.operand 0 else none

/-- The values in the filled slots, in order. -/
def values (instruction : Instruction) : List ValueId :=
  instruction.operands.filterMap id

/-- Indices of a `gep` and arguments of a `call`. -/
def trailing (instruction : Instruction) : List Slot :=
  match instruction.opcode with
  | .gep | .call => instruction.operands.tail
  | _ => []

/-- The slots of a list, two by two. -/
def pairUp : List Slot → List (Slot × Slot)
  | value :: block :: rest => (value, block) :: pairUp rest
  | _ => []

/-- The incoming pairs of a phi: a value and the block it comes from. -/
def incoming (instruction : Instruction) : List (Slot × Slot) :=
  if instruction.opcode.isPhi then pairUp instruction.operands else []

end Instruction

/-- What a value is. -/
inductive Content where
  | literal (literal : Literal)
  | parameter (parameter : Parameter)
  | global (global : Global)
  | function (function : Function)
  | block (block : Block)
  | instruction (instruction : Instruction)

/-- Whether a value of this kind can be given a name: literals cannot, and instructions only if they
have a result. -/
def Content.isNameable : Content → Bool
  | .literal _ => false
  | .instruction held => held.opcode.isValue
  | _ => true

/-- A place in the arena. -/
structure Entry where
  content : Content
  /-- The name given to the value, which may be empty. -/
  name : String
  /-- The instructions that use the value, one entry for each slot that holds it. -/
  uses : List ValueId

end SsaAmd64
