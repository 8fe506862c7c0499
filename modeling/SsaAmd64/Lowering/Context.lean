/-
**What the code of a function is made from.**

The function with its frame, its call plan and the labels of its blocks; and where a value can be
read from. No value stays in a register from one instruction to the next: each has its home slot.
-/

import SsaAmd64.Asm.Line
import SsaAmd64.Lowering.Frame
import SsaAmd64.Lowering.Symbols
import SsaAmd64.Options.Basic

namespace SsaAmd64

/-- A function for which code is made. -/
structure Lowering where
  printer : Printer
  options : Options
  symbols : Symbols
  function : ValueId
  frame : Frame
  plan : CallPlan
  /-- The labels of the blocks. -/
  labels : List (ValueId × String)

/-- Where a value can be read from. -/
inductive Source where
  /-- A home slot, by its displacement from `%rbp`. -/
  | slot (displacement : Int)
  | literal (literal : Literal)
  /-- The address of a global or of a function. -/
  | symbol (symbol : String)

namespace Lowering

/-- The module that the function belongs to. -/
def subject (lowering : Lowering) : Module :=
  lowering.printer.subject

def convention (lowering : Lowering) : Convention :=
  lowering.options.platform.convention

/-- The label of a block. -/
def label (lowering : Lowering) (block : ValueId) : String :=
  (lowering.labels.lookup block).getD ""

/-- The value in a slot of an instruction, which has to be filled. -/
def operand (lowering : Lowering) (instruction : ValueId) (slot : Nat) : Except Failure ValueId :=
  match lowering.subject.operand? instruction slot with
  | some value => .ok value
  | none => unsupported (.missingOperand slot instruction)

/-- The values in the slots behind the first. -/
def trailingValues (lowering : Lowering) (instruction : ValueId) : List ValueId :=
  (lowering.subject.operandsOf instruction).tail.filterMap fun slot => slot

/-- The displacement of the home slot of a value. -/
def slot (lowering : Lowering) (id : ValueId) : Except Failure Int :=
  match lowering.frame.slot? id with
  | some displacement => .ok displacement
  | none => unsupported (.withoutSlot id lowering.function)

/-- Where a value can be read from. -/
def source (lowering : Lowering) (id : ValueId) : Except Failure Source :=
  match lowering.subject.content? id with
  | some (.literal literal) => .ok (.literal literal)
  | some (.global _) | some (.function _) => .ok (.symbol (lowering.symbols.symbol id))
  | some (.block _) => unsupported (.blockAsValue id lowering.function)
  | _ => (lowering.slot id).map .slot

/-- The width of a type whose values have to fit a register. -/
def registerWidth (lowering : Lowering) (type : Ty) : Except Failure Asm.Width := do
  match Asm.Width.ofBytes? (← type.sizeInCode) with
  | some width => return width
  | none => unsupported (.notInRegister type lowering.function)

/-- The size of the value of an instruction or of an operand. -/
def sizeOf (lowering : Lowering) (id : ValueId) : Except Failure Nat :=
  (lowering.subject.typeOf id).sizeInCode

end Lowering

end SsaAmd64
