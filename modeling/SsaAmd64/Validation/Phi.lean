/-
**The rule of phis.**

Each incoming block is a predecessor of the block of the phi and occurs once, every predecessor
occurs, and each incoming value has the type of the phi and is available at the end of the block it
comes from.
-/

import SsaAmd64.Validation.Context

namespace SsaAmd64

namespace RuleContext

/-- Whether a value is available where control leaves a block. In a block that cannot be reached
everything is. -/
def isAvailableAtEnd (context : RuleContext) (value block : ValueId) : Bool :=
  match context.subject.blockOf? value with
  | none => true
  | some source =>
    !context.tree.isReachable block || source = block || context.tree.dominates source block

/-- Checks the incoming pair at an index, where `seen` holds the blocks of the pairs before it, and
gives its block. -/
def checkPair (context : RuleContext) (type : Ty) (predecessors seen : List ValueId) (index : Nat)
    (pair : Slot × Slot) : Except Fault ValueId :=
  match pair with
  | (some value, some block) => do
    Fault.demandLabel (context.subject.typeOf block)
    (Fault.incomingNotBlock index).ifNot (context.subject.block? block).isSome
    (Fault.impossibleIncoming block).ifNot (predecessors.contains block)
    (Fault.duplicateIncoming block).ifNot !(seen.contains block)
    Fault.demandSame type (context.subject.typeOf value)
    (Fault.unavailableIncoming value block).ifNot (context.isAvailableAtEnd value block)
    return block
  | _ => .error (.incompletePair index)

/-- Checks the incoming pairs from an index on, and gives the blocks of all pairs. -/
def checkPairs (context : RuleContext) (type : Ty) (predecessors seen : List ValueId)
    (index : Nat) : List (Slot × Slot) → Except Fault (List ValueId)
  | [] => .ok seen
  | pair :: pairs => do
    let block ← context.checkPair type predecessors seen index pair
    context.checkPairs type predecessors (seen ++ [block]) (index + 1) pairs

/-- Checks a phi of a type in a block. -/
def checkPhi (context : RuleContext) (block : ValueId) (type : Ty) (pairs : List (Slot × Slot)) :
    Except Fault Unit := do
  let predecessors := context.cfg.predecessors block
  let seen ← context.checkPairs type predecessors [] 0 pairs
  match predecessors.find? fun predecessor => !seen.contains predecessor with
  | some missing => throw (.missingIncoming missing)
  | none => return

end RuleContext

end SsaAmd64
