/-
**Where operands may come from.**

Operands that belong to a function have to belong to the function that uses them, and have to be in
their blocks still. In a block that can be reached, an operand that is an instruction has to come
before its use: earlier in the same block, or in a block that dominates this one.
-/

import SsaAmd64.Validation.Context

namespace SsaAmd64

namespace RuleContext

/-- Whether an operand is an instruction that has been taken out of its block. -/
def isRemoved (context : RuleContext) (value : ValueId) : Bool :=
  match context.subject.instruction? value with
  | some producer => producer.block.isNone
  | none => false

/-- Whether an operand belongs to another function. -/
def isForeign (context : RuleContext) (value : ValueId) : Bool :=
  match context.subject.owner? value with
  | some owner => owner ≠ context.function
  | none => false

def checkScope (context : RuleContext) (instruction : Instruction) : Except Fault Unit :=
  instruction.values.forM fun value => do
    (Fault.removedOperand value).ifNot !(context.isRemoved value)
    (Fault.foreignOperand value).ifNot !(context.isForeign value)

/-- Whether an operand comes before the instruction at a position of a block. What is not an
attached instruction does. -/
def isAvailable (context : RuleContext) (block : ValueId) (position : Nat) (value : ValueId) :
    Bool :=
  match context.subject.blockOf? value with
  | none => true
  | some source =>
    if source = block then
      (context.subject.position? block value).any fun earlier => earlier < position
    else context.tree.dominates source block

def checkDominance (context : RuleContext) (block : ValueId) (position : Nat)
    (instruction : Instruction) : Except Fault Unit :=
  if context.tree.isReachable block then
    instruction.values.forM fun value =>
      (Fault.undominatedOperand value).ifNot (context.isAvailable block position value)
  else .ok ()

end RuleContext

end SsaAmd64
