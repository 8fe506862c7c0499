/-
**Validation of a module.**

A fixed sequence of checks, of which the first that finds something is reported. Later checks rely
on earlier ones: the rules of instructions are looked at once every block is known to end in a
terminator.
-/

import SsaAmd64.Validation.Names
import SsaAmd64.Validation.Operands
import SsaAmd64.Validation.Rules
import SsaAmd64.Validation.Shape

namespace SsaAmd64

namespace RuleContext

/-- Checks the instruction at a position of a block. A phi reads its operands on the edges into its
block, so they need not come before it. -/
def checkInstruction (context : RuleContext) (block : ValueId) (position : Nat) (id : ValueId) :
    Except Finding Unit :=
  match context.subject.instruction? id with
  | none => .ok ()
  | some instruction =>
    Except.mapError (Finding.mk (.instruction id)) do
      context.checkScope instruction
      if instruction.opcode.isPhi then pure ()
      else context.checkDominance block position instruction
      context.checkRules block instruction

/-- Checks the instructions of the function, block by block. -/
def checkBody (context : RuleContext) : Except Finding Unit :=
  (context.subject.blocksOf context.function).forM fun block =>
    (context.subject.instructionsOf block).zipIdx.forM fun (id, position) =>
      context.checkInstruction block position id

end RuleContext

namespace Module

def checkInstructions (m : Module) : Except Finding Unit :=
  m.functions.forM fun function => (RuleContext.of m function).checkBody

/-- Checks a finished module. -/
def validate (m : Module) : Except Finding Unit := do
  m.checkEmptyBlocks
  m.checkEarlyTerminators
  m.checkTermination
  m.checkBranchToEntry
  m.checkEntryPhi
  m.checkInstructions
  m.checkFunctionNames
  m.checkGlobalNames
  m.checkGlobals

end Module

end SsaAmd64
