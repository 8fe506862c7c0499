/-
**Modules.**

A module owns the arena of its values. This file holds what can be asked of a module; what changes
one is in `Ir.Edit`.

* `Module.typeOf?`: the type of a value. It is looked for along a chain of first operands; a chain
  that is longer than the arena runs in a circle, and the look has no end.
* `Module.typeOf`: the same where types are known to be found.
* `Module.gepType`: where the indices of an address computation lead.
* `Module.predecessors`, `Module.successors`: control flow, read off uses and off terminators.
-/

import SsaAmd64.Ir.Value

namespace SsaAmd64

structure Module where
  name : String
  entries : Array Entry
  /-- Functions in the order of their creation. -/
  functions : List ValueId
  /-- Globals in the order of their creation. -/
  globals : List ValueId

namespace Module

/-- A module without values. -/
def empty (name : String) : Module :=
  ⟨name, #[], [], []⟩

/-- All values, in order of their indices. -/
def ids (m : Module) : List ValueId :=
  (List.range m.entries.size).map ValueId.mk

def entry? (m : Module) (id : ValueId) : Option Entry :=
  m.entries[id.index]?

def content? (m : Module) (id : ValueId) : Option Content :=
  (m.entry? id).map Entry.content

/-- The name given to a value, as it is stored. -/
def storedName (m : Module) (id : ValueId) : String :=
  ((m.entry? id).map Entry.name).getD ""

/-- The instructions that use a value, one entry for each slot. -/
def uses (m : Module) (id : ValueId) : List ValueId :=
  ((m.entry? id).map Entry.uses).getD []

/-! ### Values of one kind -/

def literal? (m : Module) (id : ValueId) : Option Literal :=
  match m.content? id with
  | some (.literal literal) => some literal
  | _ => none

def parameter? (m : Module) (id : ValueId) : Option Parameter :=
  match m.content? id with
  | some (.parameter parameter) => some parameter
  | _ => none

def global? (m : Module) (id : ValueId) : Option Global :=
  match m.content? id with
  | some (.global global) => some global
  | _ => none

def function? (m : Module) (id : ValueId) : Option Function :=
  match m.content? id with
  | some (.function function) => some function
  | _ => none

def block? (m : Module) (id : ValueId) : Option Block :=
  match m.content? id with
  | some (.block block) => some block
  | _ => none

def instruction? (m : Module) (id : ValueId) : Option Instruction :=
  match m.content? id with
  | some (.instruction instruction) => some instruction
  | _ => none

/-! ### Parts of functions, blocks and instructions -/

/-- The parameters of a function. -/
def parametersOf (m : Module) (function : ValueId) : List ValueId :=
  ((m.function? function).map Function.parameters).getD []

/-- The blocks of a function. -/
def blocksOf (m : Module) (function : ValueId) : List ValueId :=
  ((m.function? function).map Function.blocks).getD []

/-- The first block of a function. -/
def entryOf? (m : Module) (function : ValueId) : Option ValueId :=
  (m.blocksOf function).head?

/-- The instructions of a block. -/
def instructionsOf (m : Module) (block : ValueId) : List ValueId :=
  ((m.block? block).map Block.instructions).getD []

/-- The operand slots of an instruction. -/
def operandsOf (m : Module) (instruction : ValueId) : List Slot :=
  ((m.instruction? instruction).map Instruction.operands).getD []

/-- The value in a slot of an instruction, if the slot exists and is filled. -/
def operand? (m : Module) (instruction : ValueId) (slot : Nat) : Option ValueId :=
  (m.operandsOf instruction)[slot]?.join

/-- The kind of an instruction. -/
def opcode? (m : Module) (instruction : ValueId) : Option Opcode :=
  (m.instruction? instruction).map Instruction.opcode

/-- Whether an instruction is of a kind. -/
def hasOpcode (m : Module) (test : Opcode → Bool) (instruction : ValueId) : Bool :=
  (m.opcode? instruction).any test

/-- The block that holds an instruction. -/
def blockOf? (m : Module) (instruction : ValueId) : Option ValueId :=
  (m.instruction? instruction).bind Instruction.block

/-- The position of an instruction in a block. -/
def position? (m : Module) (block instruction : ValueId) : Option Nat :=
  (m.instructionsOf block).findIdx? (· = instruction)

/-- The instructions of a function that stand in its blocks. -/
def bodyOf (m : Module) (function : ValueId) : List ValueId :=
  (m.blocksOf function).flatMap m.instructionsOf

/-- The function that a parameter, a block or an attached instruction belongs to. -/
def owner? (m : Module) (id : ValueId) : Option ValueId :=
  match m.content? id with
  | some (.parameter parameter) => some parameter.function
  | some (.block block) => some block.function
  | some (.instruction instruction) =>
    instruction.block.bind fun block => (m.block? block).map Block.function
  | _ => none

/-- Whether a block is the first of its function. -/
def isEntry (m : Module) (block : ValueId) : Bool :=
  match m.block? block with
  | some content => m.entryOf? content.function == some block
  | none => false

def functionNamed? (m : Module) (name : String) : Option ValueId :=
  m.functions.find? fun function => m.storedName function == name

def globalNamed? (m : Module) (name : String) : Option ValueId :=
  m.globals.find? fun global => m.storedName global == name

/-! ### Types of values -/

/-- One index into a type, at a position of the index list: the first index may lead through a
pointer, an index into a struct has to be an integer literal that names a field. -/
def stepType (m : Module) (position : Nat) (index : Slot) : Ty → Option Ty
  | .pointer element => if position = 0 then some element else none
  | .array _ element => some element
  | .struct _ fields => do
    let value ← ((← index.bind m.literal?).natValue?)
    fields[value]?
  | _ => none

/-- The type that indices lead to, from a position of the index list on. -/
def walkType (m : Module) (position : Nat) : List Slot → Ty → Option Ty
  | [], type => some type
  | index :: indices, type => do
    m.walkType (position + 1) indices (← m.stepType position index type)

/-- The type of an address computation on a base of a type: a pointer to where the indices lead, or
`void` if they lead nowhere. -/
def addressType (m : Module) (base : Option Ty) (indices : List Slot) : Ty :=
  match base.bind (m.walkType 0 indices) with
  | some type => .pointer type
  | none => .void

/-- The type of the result of an instruction whose first operand has the given type. -/
def resultType (m : Module) (instruction : Instruction) (first : Option Ty) : Ty :=
  match instruction.opcode with
  | .alloc storage => .pointer storage
  | .load => (first.bind Ty.pointee?).getD .void
  | .binary _ => first.getD .void
  | .compare _ => .int 1
  | .convert _ target => target
  | .gep => m.addressType first instruction.operands.tail
  | .call => ((first.bind Ty.signature?).map Signature.result).getD .void
  | .phi type => type
  | .store | .br | .condbr | .ret | .unreachable => .void

/-- The value whose type the type of a value is made from. -/
def origin? (m : Module) (id : ValueId) : Option ValueId :=
  (m.instruction? id).bind Instruction.origin?

/-- The type of a value, where that of its origin is given. -/
def typeFrom (m : Module) (id : ValueId) (first : Option Ty) : Ty :=
  match m.content? id with
  | some (.literal literal) => literal.type
  | some (.parameter parameter) => parameter.type
  | some (.global global) => .pointer global.storage
  | some (.function function) => function.signature.type
  | some (.block _) => .label
  | some (.instruction instruction) => m.resultType instruction first
  | none => .void

/-- The type of a value, from one origin to the next; none if more than `depth` values would have to
be looked at. -/
def typeWithin? (m : Module) : (depth : Nat) → ValueId → Option Ty
  | 0, _ => none
  | depth + 1, id =>
    match m.origin? id with
    | none => some (m.typeFrom id none)
    | some origin => (m.typeWithin? depth origin).map fun type => m.typeFrom id (some type)

/-- The type of a value; none if the look for it has no end. -/
def typeOf? (m : Module) (id : ValueId) : Option Ty :=
  m.typeWithin? (m.entries.size + 1) id

/-- The type of a value, for what asks for types where they are found. -/
def typeOf (m : Module) (id : ValueId) : Ty :=
  (m.typeOf? id).getD .void

/-- The type of an address computation. -/
def gepType (m : Module) (instruction : ValueId) : Ty :=
  m.addressType ((m.operand? instruction 0).map m.typeOf) (m.operandsOf instruction).tail

/-- Whether an instruction yields a usable result: a call of a function without result does not.
None if the look for its type has no end. -/
def producesValue? (m : Module) (instruction : ValueId) : Option Bool :=
  if m.hasOpcode Opcode.isValue instruction then
    (m.typeOf? instruction).map fun type => !type.isVoid
  else some false

/-- Whether an instruction yields a usable result, where types are found. -/
def producesValue (m : Module) (instruction : ValueId) : Bool :=
  m.hasOpcode Opcode.isValue instruction && !(m.typeOf instruction).isVoid

/-! ### Control flow -/

/-- The blocks whose branches name a block, in the order of its uses. A branch that names it twice
counts twice. -/
def predecessors (m : Module) (block : ValueId) : List ValueId :=
  ((m.uses block).filter (m.hasOpcode Opcode.isBranch)).filterMap m.blockOf?

/-- The slots that name the targets of a terminator. -/
def targetSlots (instruction : Instruction) : List Slot :=
  match instruction.opcode with
  | .br => instruction.operands
  | .condbr => instruction.operands.tail
  | _ => []

/-- The blocks that the last instruction of a block names as targets, in the order of its slots. -/
def successors (m : Module) (block : ValueId) : List ValueId :=
  match (m.instructionsOf block).getLast?.bind m.instruction? with
  | some instruction =>
    ((targetSlots instruction).filterMap id).filter fun target => (m.block? target).isSome
  | none => []

end Module

end SsaAmd64
