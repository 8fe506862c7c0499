/-
**Construction of instructions at a cursor.**

A cursor remembers where the next instruction goes. It is no part of the module, so several cursors
work on one module independently. It checks no rules of the program: that is validation.

* `Cursor.insert`: the new instruction, the module with it, and the cursor behind it;
* `Module.locate`: the block and position that an insertion point stands for.
-/

import SsaAmd64.Ir.Edit

namespace SsaAmd64

/-- Where an instruction goes. -/
inductive InsertionPoint where
  | before (instruction : ValueId)
  | after (instruction : ValueId)
  | start (block : ValueId)
  | finish (block : ValueId)
deriving DecidableEq

/-- An instruction to be built, with the values for its slots. -/
inductive Form where
  | alloc (storage : Ty)
  | load (pointer : ValueId)
  | store (pointer value : ValueId)
  | binary (operation : BinaryOp) (left right : ValueId)
  | compare (predicate : Predicate) (left right : ValueId)
  | convert (conversion : Conversion) (value : ValueId) (target : Ty)
  | gep (base : ValueId) (indices : List ValueId)
  | call (callee : ValueId) (arguments : List ValueId)
  | br (target : ValueId)
  | condbr (condition ifTrue ifFalse : ValueId)
  | ret (value : Option ValueId)
  /-- A phi starts without incoming pairs. -/
  | phi (type : Ty)
  | unreachable

namespace Form

def opcode : Form → Opcode
  | alloc storage => .alloc storage
  | load _ => .load
  | store _ _ => .store
  | binary operation _ _ => .binary operation
  | compare predicate _ _ => .compare predicate
  | convert conversion _ target => .convert conversion target
  | gep _ _ => .gep
  | call _ _ => .call
  | br _ => .br
  | condbr _ _ _ => .condbr
  | ret _ => .ret
  | phi type => .phi type
  | unreachable => .unreachable

def operands : Form → List Slot
  | alloc _ => []
  | load pointer => [some pointer]
  | store pointer value => [some pointer, some value]
  | binary _ left right => [some left, some right]
  | compare _ left right => [some left, some right]
  | convert _ value _ => [some value]
  | gep base indices => some base :: indices.map some
  | call callee arguments => some callee :: arguments.map some
  | br target => [some target]
  | condbr condition ifTrue ifFalse => [some condition, some ifTrue, some ifFalse]
  | ret value => [value]
  | phi _ => []
  | unreachable => []

/-- Operands are values of the module, callees are functions and targets are blocks. -/
def check (m : Module) (form : Form) : Except EditError Unit := do
  (form.operands.filterMap fun slot => slot).forM m.requireValue
  match form with
  | call callee _ => do let _ ← m.requireFunction callee
  | br target => do let _ ← m.requireBlock target
  | condbr _ ifTrue ifFalse => do
    let _ ← m.requireBlock ifTrue
    let _ ← m.requireBlock ifFalse
  | _ => return

end Form

/-- The block and the position in it that an insertion point stands for. -/
def Module.locate (m : Module) : InsertionPoint → Except EditError (ValueId × Nat)
  | .before anchor => do
    let (block, position) ← anchored anchor
    return (block, position)
  | .after anchor => do
    let (block, position) ← anchored anchor
    return (block, position + 1)
  | .start block => do
    let _ ← m.requireBlock block
    return (block, 0)
  | .finish block => do
    let held ← m.requireBlock block
    return (block, held.instructions.length)
where
  /-- The block of an anchor and the position of the anchor in it. -/
  anchored (anchor : ValueId) : Except EditError (ValueId × Nat) := do
    let held ← m.requireInstruction anchor
    match held.block with
    | none => throw .detachedAnchor
    | some block =>
      match m.position? block anchor with
      | some position => return (block, position)
      | none => throw .misplacedAnchor

/-- A place for the next instruction, if one has been chosen. -/
structure Cursor where
  point : Option InsertionPoint

/-- What an insertion leaves behind. -/
structure Insertion where
  instruction : ValueId
  outcome : Module
  cursor : Cursor

namespace Cursor

/-- A cursor that stands nowhere yet. -/
def unset : Cursor := ⟨none⟩

/-- The block that the cursor stands in. -/
def block? (cursor : Cursor) (m : Module) : Option ValueId :=
  match cursor.point with
  | some (.before anchor) => m.blockOf? anchor
  | some (.after anchor) => m.blockOf? anchor
  | some (.start block) => some block
  | some (.finish block) => some block
  | none => none

/-- Where a cursor stands after it has inserted an instruction: behind the instruction, or still at
the end of the block. -/
def advance (point : InsertionPoint) (instruction : ValueId) : InsertionPoint :=
  match point with
  | .finish block => .finish block
  | _ => .after instruction

/-- Builds an instruction at the cursor. -/
def insert (cursor : Cursor) (m : Module) (form : Form) (name : String) :
    Except EditError Insertion :=
  match cursor.point with
  | none => .error .noInsertionPoint
  | some point => do
    let (block, position) ← m.locate point
    form.check m
    let (instruction, outcome) := m.insertAt block position form.opcode form.operands name
    return ⟨instruction, outcome, ⟨some (advance point instruction)⟩⟩

end Cursor

end SsaAmd64
