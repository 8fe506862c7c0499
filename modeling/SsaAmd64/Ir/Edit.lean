/-
**Changes to a module.**

Every change gives a new module, or the reason why it is refused. An operand slot is only ever
filled together with the lists of uses of the value that leaves it and of the value that enters it.

* `Module.addLiteral`, `addGlobal`, `addText`, `addFunction`, `addBlock`: new values;
* `Module.insertAt`: a new instruction at a position of a block;
* `Module.replaceOperand`, `replaceUses`, `addIncoming`, `removeIncoming`, `remove`: changes of
  operands;
* `Module.rename`, `setInitialiser`: changes of what a value is called or starts out as.
-/

import SsaAmd64.Ir.Module

namespace SsaAmd64

/-- Why a change is refused. -/
inductive EditError where
  | notValue (id : ValueId)
  | notGlobal (id : ValueId)
  | notFunction (id : ValueId)
  | notBlock (id : ValueId)
  | notInstruction (id : ValueId)
  | functionExists (name : String)
  | noInsertionPoint
  | detachedAnchor
  | misplacedAnchor
  | noSlot (slot count : Nat)
  | notPhi (id : ValueId)
  | noIncoming (index : Nat)
  | noIncomingToRemove (index : Nat)
  | inUse (id : ValueId) (count : Nat)
  | detached (id : ValueId)
deriving DecidableEq

/-- The report of a refusal. -/
def EditError.message : EditError → String
  | notValue id => id.text ++ " is not a value"
  | notGlobal id => id.text ++ " is not a global"
  | notFunction id => id.text ++ " is not a function"
  | notBlock id => id.text ++ " is not a block"
  | notInstruction id => id.text ++ " is not an instruction"
  | functionExists name => "function `" ++ name ++ "` exists"
  | noInsertionPoint => "Builder used before an insertion point was set"
  | detachedAnchor => "Builder anchored to a detached instruction"
  | misplacedAnchor => "Builder anchor is missing from its block"
  | noSlot slot count =>
    "replace_operand: slot " ++ toString slot ++ " out of range (" ++ toString count ++ " slots)"
  | notPhi id => "add_incoming: " ++ id.text ++ " is not a phi"
  | noIncoming index => "incoming: index " ++ toString index ++ " out of range"
  | noIncomingToRemove index => "remove_incoming: index " ++ toString index ++ " out of range"
  | inUse id count =>
    "cannot remove instruction " ++ id.text ++ ": it still has " ++ toString count ++
      " use(s) and no replacement was given"
  | detached id => "instruction " ++ id.text ++ " is not attached to a block"

namespace Module

/-! ### Changes of one value -/

def modify (m : Module) (id : ValueId) (change : Entry → Entry) : Module :=
  { m with entries := m.entries.modify id.index change }

/-- Changes what a global is; other values stay as they are. -/
def modifyGlobal (m : Module) (id : ValueId) (change : Global → Global) : Module :=
  m.modify id fun entry =>
    match entry.content with
    | .global held => { entry with content := .global (change held) }
    | _ => entry

def modifyFunction (m : Module) (id : ValueId) (change : Function → Function) : Module :=
  m.modify id fun entry =>
    match entry.content with
    | .function held => { entry with content := .function (change held) }
    | _ => entry

def modifyBlock (m : Module) (id : ValueId) (change : Block → Block) : Module :=
  m.modify id fun entry =>
    match entry.content with
    | .block held => { entry with content := .block (change held) }
    | _ => entry

def modifyInstruction (m : Module) (id : ValueId) (change : Instruction → Instruction) : Module :=
  m.modify id fun entry =>
    match entry.content with
    | .instruction held => { entry with content := .instruction (change held) }
    | _ => entry

/-- Records one more use of a value. -/
def addUse (m : Module) (user value : ValueId) : Module :=
  m.modify value fun entry => { entry with uses := entry.uses ++ [user] }

/-- Forgets the first recorded use of a value by a user. -/
def dropUse (m : Module) (user value : ValueId) : Module :=
  m.modify value fun entry => { entry with uses := entry.uses.erase user }

/-- Puts a value, or nothing, into an existing slot. -/
def fillSlot (m : Module) (user : ValueId) (slot : Nat) (filling : Slot) : Module :=
  let released := match m.operand? user slot with
    | some old => m.dropUse user old
    | none => m
  let filled := released.modifyInstruction user fun instruction =>
    { instruction with operands := instruction.operands.set slot filling }
  match filling with
  | some value => filled.addUse user value
  | none => filled

/-! ### Demands on values -/

def requireValue (m : Module) (id : ValueId) : Except EditError Unit :=
  if (m.entry? id).isSome then .ok () else .error (.notValue id)

def requireGlobal (m : Module) (id : ValueId) : Except EditError Global :=
  match m.global? id with
  | some global => .ok global
  | none => .error (.notGlobal id)

def requireFunction (m : Module) (id : ValueId) : Except EditError Function :=
  match m.function? id with
  | some function => .ok function
  | none => .error (.notFunction id)

def requireBlock (m : Module) (id : ValueId) : Except EditError Block :=
  match m.block? id with
  | some block => .ok block
  | none => .error (.notBlock id)

def requireInstruction (m : Module) (id : ValueId) : Except EditError Instruction :=
  match m.instruction? id with
  | some instruction => .ok instruction
  | none => .error (.notInstruction id)

/-! ### New values -/

/-- Adds a value at the end of the arena. -/
def push (m : Module) (content : Content) (name : String) : ValueId × Module :=
  (⟨m.entries.size⟩, { m with entries := m.entries.push ⟨content, name, []⟩ })

/-- Every literal is a value of its own, equal ones too. -/
def addLiteral (m : Module) (literal : Literal) : ValueId × Module :=
  m.push (.literal literal) ""

def Initialiser.check (m : Module) : Initialiser → Except EditError Unit
  | .literal value => m.requireValue value
  | .global value => do let _ ← m.requireGlobal value
  | .zero => .ok ()

def addGlobal (m : Module) (storage : Ty) (initialiser : Initialiser) (name : String) :
    Except EditError (ValueId × Module) := do
  Initialiser.check m initialiser
  let (id, extended) := m.push (.global ⟨storage, initialiser⟩) name
  return (id, { extended with globals := extended.globals ++ [id] })

/-- A global that holds a text, closed by a zero byte if asked. The literal comes first. -/
def addText (m : Module) (text : String) (terminated : Bool) (name : String) :
    Except EditError (ValueId × Module) :=
  let literal := Literal.ofText text terminated
  let (value, extended) := m.addLiteral literal
  extended.addGlobal literal.type (.literal value) name

def setInitialiser (m : Module) (global : ValueId) (initialiser : Initialiser) :
    Except EditError Module := do
  let _ ← m.requireGlobal global
  Initialiser.check m initialiser
  return m.modifyGlobal global fun held => { held with initialiser }

/-- Adds a value for each parameter of a function, from a position on. -/
def pushParameters (m : Module) (function : ValueId) (position : Nat) :
    List Ty → List ValueId × Module
  | [] => ([], m)
  | type :: types =>
    let (id, extended) := m.push (.parameter ⟨function, position, type⟩) ""
    let (ids, complete) := extended.pushParameters function (position + 1) types
    (id :: ids, complete)

/-- A function without blocks, followed by its parameters, which have no names. Its own name has to
be new. -/
def addFunction (m : Module) (signature : Signature) (name : String) :
    Except EditError (ValueId × Module) :=
  if (m.functionNamed? name).isSome then .error (.functionExists name)
  else
    let (id, extended) := m.push (.function ⟨signature, [], []⟩) name
    let (parameters, complete) := extended.pushParameters id 0 signature.parameters
    let finished := complete.modifyFunction id fun function => { function with parameters }
    .ok (id, { finished with functions := finished.functions ++ [id] })

/-- Where a new block goes: a block at the start becomes the first of its function. -/
inductive BlockPlace where
  | start
  | finish
deriving DecidableEq

def addBlock (m : Module) (function : ValueId) (place : BlockPlace) (name : String) :
    Except EditError (ValueId × Module) := do
  let _ ← m.requireFunction function
  let (id, extended) := m.push (.block ⟨function, []⟩) name
  return (id, extended.modifyFunction function fun held =>
    match place with
    | .start => { held with blocks := id :: held.blocks }
    | .finish => { held with blocks := held.blocks ++ [id] })

/-- A new instruction at a position of a block. An instruction without result has no name. -/
def insertAt (m : Module) (block : ValueId) (position : Nat) (opcode : Opcode)
    (operands : List Slot) (name : String) : ValueId × Module :=
  let (id, extended) :=
    m.push (.instruction ⟨some block, opcode, operands⟩) (if opcode.isValue then name else "")
  let listed := extended.modifyBlock block fun held =>
    { held with instructions := held.instructions.insertIdx position id }
  (id, (operands.filterMap fun slot => slot).foldl (fun m value => m.addUse id value) listed)

/-! ### Operands -/

/-- Puts a value, or nothing, into a slot of an instruction. -/
def replaceOperand (m : Module) (instruction : ValueId) (slot : Nat) (filling : Slot) :
    Except EditError Module := do
  let held ← m.requireInstruction instruction
  if slot < held.operands.length then
    match filling with
    | some value => m.requireValue value
    | none => .ok ()
    return m.fillSlot instruction slot filling
  else throw (.noSlot slot held.operands.length)

/-- Points the slots of one user that hold a value at another value. -/
def redirect (m : Module) (user old new : ValueId) : Module :=
  (List.range (m.operandsOf user).length).foldl
    (fun m slot => if m.operand? user slot = some old then m.fillSlot user slot (some new) else m) m

/-- Points every use of a value at another value. The users are taken from the list of uses as it is
at the start, where neighbours that are equal count once. -/
def redirectUses (m : Module) (old new : ValueId) : Module :=
  (m.uses old).eraseReps.foldl (fun m user => m.redirect user old new) m

def replaceUses (m : Module) (old new : ValueId) : Except EditError Module := do
  m.requireValue old
  m.requireValue new
  return m.redirectUses old new

/-- Adds an incoming pair to a phi. -/
def addIncoming (m : Module) (phi value block : ValueId) : Except EditError Module := do
  let held ← m.requireInstruction phi
  if held.opcode.isPhi then
    m.requireValue value
    let _ ← m.requireBlock block
    let extended := m.modifyInstruction phi fun instruction =>
      { instruction with operands := instruction.operands ++ [some value, some block] }
    return (extended.addUse phi value).addUse phi block
  else throw (.notPhi phi)

/-- The incoming pair of a phi at an index. -/
def incomingAt (m : Module) (phi : ValueId) (index : Nat) : Except EditError (Slot × Slot) := do
  let held ← m.requireInstruction phi
  match held.incoming[index]? with
  | some pair => return pair
  | none => throw (.noIncoming index)

/-- Takes the incoming pair at an index out of a phi. -/
def removeIncoming (m : Module) (phi : ValueId) (index : Nat) : Except EditError Module := do
  let held ← m.requireInstruction phi
  if index < held.incoming.length then
    let emptied := (m.fillSlot phi (2 * index) none).fillSlot phi (2 * index + 1) none
    return emptied.modifyInstruction phi fun instruction =>
      { instruction with
        operands := instruction.operands.take (2 * index) ++
          instruction.operands.drop (2 * index + 2) }
  else throw (.noIncomingToRemove index)

/-- Empties the slots of an instruction. -/
def emptySlots (m : Module) (instruction : ValueId) : Module :=
  (List.range (m.operandsOf instruction).length).foldl
    (fun m slot => m.fillSlot instruction slot none) m

/-- Takes an instruction out of its block. What uses it is pointed at the replacement; without one,
an instruction in use stays. -/
def remove (m : Module) (instruction : ValueId) (replacement : Option ValueId) :
    Except EditError Module := do
  let held ← m.requireInstruction instruction
  match held.block with
  | none => throw (.detached instruction)
  | some block =>
    let count := (m.uses instruction).length
    let redirected ←
      if count = 0 then pure m
      else match replacement with
        | some new => do
          m.requireValue new
          pure (m.redirectUses instruction new)
        | none => throw (.inUse instruction count)
    let emptied := redirected.emptySlots instruction
    let unlisted := emptied.modifyBlock block fun content =>
      { content with instructions := content.instructions.filter (· ≠ instruction) }
    return unlisted.modifyInstruction instruction fun content => { content with block := none }

/-! ### Names -/

/-- Gives a name to a value. What cannot have a name stays as it is. -/
def rename (m : Module) (id : ValueId) (name : String) : Module :=
  m.modify id fun entry => if entry.content.isNameable then { entry with name } else entry

end Module

end SsaAmd64
