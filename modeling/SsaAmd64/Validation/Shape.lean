/-
**The shape of blocks.**

Every block of a function is non-empty and has its only terminator at the end. Nothing branches to
the entry block, and no phi stands in it.
-/

import SsaAmd64.Validation.Fault

namespace SsaAmd64

namespace Module

/-- Every block of every function, in order. -/
def allBlocks (m : Module) : List ValueId :=
  m.functions.flatMap m.blocksOf

/-- The entry blocks of the functions that have one. -/
def allEntries (m : Module) : List ValueId :=
  m.functions.filterMap m.entryOf?

/-- Reports the first element of a list for which a fault is found. -/
def reportFirst (site : ValueId → Site) (fault : Fault) (faulty : List ValueId) :
    Except Finding Unit :=
  match faulty with
  | [] => .ok ()
  | id :: _ => .error ⟨site id, fault⟩

def checkEmptyBlocks (m : Module) : Except Finding Unit :=
  reportFirst .block .emptyBlock
    (m.allBlocks.filter fun block => (m.instructionsOf block).isEmpty)

/-- The terminators of a block that are not at its end. -/
def earlyTerminators (m : Module) (block : ValueId) : List ValueId :=
  (m.instructionsOf block).dropLast.filter (m.hasOpcode Opcode.isTerminator)

def checkEarlyTerminators (m : Module) : Except Finding Unit :=
  reportFirst .instruction .earlyTerminator (m.allBlocks.flatMap m.earlyTerminators)

/-- Whether the last instruction of a block is a terminator. -/
def isTerminated (m : Module) (block : ValueId) : Bool :=
  (m.instructionsOf block).getLast?.any (m.hasOpcode Opcode.isTerminator)

def checkTermination (m : Module) : Except Finding Unit :=
  reportFirst .block .unterminatedBlock (m.allBlocks.filter fun block => !m.isTerminated block)

def checkBranchToEntry (m : Module) : Except Finding Unit :=
  reportFirst .instruction .branchToEntry
    (m.allEntries.flatMap fun entry => (m.uses entry).filter (m.hasOpcode Opcode.isBranch))

def checkEntryPhi (m : Module) : Except Finding Unit :=
  reportFirst .instruction .phiInEntry
    (m.allEntries.flatMap fun entry => (m.instructionsOf entry).filter (m.hasOpcode Opcode.isPhi))

end Module

end SsaAmd64
