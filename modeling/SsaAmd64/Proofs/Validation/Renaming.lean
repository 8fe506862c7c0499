/-
**Names matter to two checks only.**

The rules of blocks and of instructions look at no name, so a module with other names passes them or
breaks them alike. Function names are compared as they are stored, and the names of globals as they
are printed.

* `RuleContext.checkBody_within`: the rules of the instructions of a function;
* `Module.Renamed.validate`: validation of a module whose globals and functions go by the same
  names;
* `Printer.Alike.findingText`: and the report of what is found.
-/

import SsaAmd64.Proofs.Ir.Printing
import SsaAmd64.Validation.Module

namespace SsaAmd64

namespace RuleContext

variable {context : RuleContext} {next : Module}

/-- The same function and analyses in another module. -/
def within (context : RuleContext) (next : Module) : RuleContext :=
  { context with subject := next }

theorem of_renamed {m : Module} (renamed : m.Renamed next) (function : ValueId) :
    RuleContext.of next function = (RuleContext.of m function).within next := by
  rw [RuleContext.of, renamed.cfg]
  rfl

section Rules

variable (renamed : context.subject.Renamed next)
include renamed

/-! ### Where operands come from -/

theorem isRemoved_within : (context.within next).isRemoved = context.isRemoved := by
  unfold isRemoved
  rw [within, renamed.instruction?]

theorem isForeign_within : (context.within next).isForeign = context.isForeign := by
  unfold isForeign
  rw [within, renamed.owner?]

theorem checkScope_within : (context.within next).checkScope = context.checkScope := by
  unfold checkScope
  rw [isRemoved_within renamed, isForeign_within renamed]

theorem isAvailable_within : (context.within next).isAvailable = context.isAvailable := by
  unfold isAvailable
  rw [within, renamed.blockOf?, renamed.position?]

theorem checkDominance_within : (context.within next).checkDominance = context.checkDominance := by
  unfold checkDominance
  rw [isAvailable_within renamed]
  rfl

/-! ### Phis -/

theorem isAvailableAtEnd_within :
    (context.within next).isAvailableAtEnd = context.isAvailableAtEnd := by
  unfold isAvailableAtEnd
  rw [within, renamed.blockOf?]

theorem checkPair_within : (context.within next).checkPair = context.checkPair := by
  unfold checkPair
  rw [isAvailableAtEnd_within renamed, within, renamed.typeOf, renamed.block?]

theorem checkPairs_within : (context.within next).checkPairs = context.checkPairs := by
  funext type predecessors seen index pairs
  induction pairs generalizing seen index with
  | nil => rfl
  | cons pair pairs ih =>
    rw [checkPairs, checkPairs, checkPair_within renamed]
    exact congrArg (Except.bind _) (funext fun block => ih (seen ++ [block]) (index + 1))

theorem checkPhi_within : (context.within next).checkPhi = context.checkPhi := by
  unfold checkPhi
  rw [checkPairs_within renamed]
  rfl

/-! ### Operands and types -/

theorem operandType_within : (context.within next).operandType = context.operandType := by
  unfold operandType
  rw [within, renamed.typeOf]

theorem checkLoad_within : (context.within next).checkLoad = context.checkLoad := by
  unfold checkLoad
  rw [operandType_within renamed]

theorem checkStore_within : (context.within next).checkStore = context.checkStore := by
  unfold checkStore
  rw [operandType_within renamed]

theorem checkBinary_within : (context.within next).checkBinary = context.checkBinary := by
  unfold checkBinary
  rw [operandType_within renamed]

theorem checkCompare_within : (context.within next).checkCompare = context.checkCompare := by
  unfold checkCompare
  rw [operandType_within renamed]

theorem checkStep_within : (context.within next).checkStep = context.checkStep := by
  funext position index type
  rw [checkStep.eq_def, checkStep.eq_def, within, renamed.literal?]

theorem checkIndices_within : (context.within next).checkIndices = context.checkIndices := by
  funext position indices type
  induction indices generalizing position type with
  | nil => rfl
  | cons index indices ih =>
    cases index with
    | none => rfl
    | some index =>
      rw [checkIndices, checkIndices, checkStep_within renamed, within, renamed.typeOf]
      refine congrArg (Except.bind _) (funext fun _ => ?_)
      exact congrArg (Except.bind _) (funext (ih (position + 1)))

theorem checkGep_within : (context.within next).checkGep = context.checkGep := by
  unfold checkGep
  rw [operandType_within renamed, checkIndices_within renamed]

theorem checkArguments_within : (context.within next).checkArguments = context.checkArguments := by
  funext position arguments parameters
  induction arguments generalizing position parameters with
  | nil => rfl
  | cons argument arguments ih =>
    cases argument with
    | none => rfl
    | some argument =>
      rw [checkArguments, checkArguments, ih]
      rw [within, renamed.typeOf]

theorem checkCall_within : (context.within next).checkCall = context.checkCall := by
  unfold checkCall
  rw [checkArguments_within renamed, within, renamed.typeOf]

theorem checkCondbr_within : (context.within next).checkCondbr = context.checkCondbr := by
  unfold checkCondbr
  rw [operandType_within renamed]

theorem resultType_within : (context.within next).resultType = context.resultType := by
  unfold resultType
  rw [within, renamed.function?]

theorem checkRet_within : (context.within next).checkRet = context.checkRet := by
  unfold checkRet
  rw [resultType_within renamed, within, renamed.typeOf]

theorem checkRules_within : (context.within next).checkRules = context.checkRules := by
  unfold checkRules
  rw [checkLoad_within renamed, checkStore_within renamed, checkBinary_within renamed,
    checkCompare_within renamed, operandType_within renamed, checkGep_within renamed,
    checkCall_within renamed, checkCondbr_within renamed, checkRet_within renamed,
    checkPhi_within renamed]

theorem checkInstruction_within :
    (context.within next).checkInstruction = context.checkInstruction := by
  unfold checkInstruction
  rw [checkScope_within renamed, checkDominance_within renamed, checkRules_within renamed, within,
    renamed.instruction?]

/-- **The rules of the instructions of a function look at no name.** -/
theorem checkBody_within : (context.within next).checkBody = context.checkBody := by
  unfold checkBody
  rw [checkInstruction_within renamed, within, renamed.blocksOf, renamed.instructionsOf]

end Rules

end RuleContext

namespace Module.Renamed

variable {m next : Module} (renamed : Renamed m next)
include renamed

/-! ### Blocks -/

theorem allBlocks : next.allBlocks = m.allBlocks := by
  unfold Module.allBlocks
  rw [renamed.functions, renamed.blocksOf]

theorem allEntries : next.allEntries = m.allEntries := by
  unfold Module.allEntries
  rw [renamed.functions, renamed.entryOf?]

theorem checkEmptyBlocks : next.checkEmptyBlocks = m.checkEmptyBlocks := by
  unfold Module.checkEmptyBlocks
  rw [renamed.allBlocks, renamed.instructionsOf]

theorem earlyTerminators : next.earlyTerminators = m.earlyTerminators := by
  unfold Module.earlyTerminators
  rw [renamed.instructionsOf, renamed.hasOpcode]

theorem checkEarlyTerminators : next.checkEarlyTerminators = m.checkEarlyTerminators := by
  unfold Module.checkEarlyTerminators
  rw [renamed.allBlocks, renamed.earlyTerminators]

theorem isTerminated : next.isTerminated = m.isTerminated := by
  unfold Module.isTerminated
  rw [renamed.instructionsOf, renamed.hasOpcode]

theorem checkTermination : next.checkTermination = m.checkTermination := by
  unfold Module.checkTermination
  rw [renamed.allBlocks, renamed.isTerminated]

theorem checkBranchToEntry : next.checkBranchToEntry = m.checkBranchToEntry := by
  unfold Module.checkBranchToEntry
  rw [renamed.allEntries, renamed.uses, renamed.hasOpcode]

theorem checkEntryPhi : next.checkEntryPhi = m.checkEntryPhi := by
  unfold Module.checkEntryPhi
  rw [renamed.allEntries, renamed.instructionsOf, renamed.hasOpcode]

theorem checkInstructions : next.checkInstructions = m.checkInstructions := by
  unfold Module.checkInstructions
  rw [renamed.functions]
  refine congrArg (List.forM _) (funext fun function => ?_)
  rw [RuleContext.of_renamed renamed, RuleContext.checkBody_within renamed]

/-! ### Names -/

theorem checkFunctionNames
    (stored : ∀ function ∈ m.functions, next.storedName function = m.storedName function) :
    next.checkFunctionNames = m.checkFunctionNames := by
  have remaining : ∀ (functions : List ValueId) (seen : List String),
      (∀ function ∈ functions, next.storedName function = m.storedName function) →
      next.checkFunctionNamesFrom seen functions = m.checkFunctionNamesFrom seen functions := by
    intro functions
    induction functions with
    | nil => exact fun _ _ => rfl
    | cons function functions ih =>
      intro seen same
      obtain ⟨here, others⟩ := List.forall_mem_cons.mp same
      rw [checkFunctionNamesFrom, checkFunctionNamesFrom, here, ih _ others]
  rw [Module.checkFunctionNames, renamed.functions, remaining m.functions [] stored]
  rfl

theorem checkGlobalNames
    (printed : ∀ global ∈ m.globals, (Printer.of next).name global = (Printer.of m).name global)
    (stored : ∀ function ∈ m.functions, next.storedName function = m.storedName function) :
    next.checkGlobalNames = m.checkGlobalNames := by
  unfold Module.checkGlobalNames
  dsimp only
  rw [renamed.functions, renamed.globals, List.map_congr_left stored]
  refine forM_congr fun global member => ?_
  rw [printed global member]

/-! ### Globals -/

theorem initialFault? : next.initialFault? = m.initialFault? := by
  unfold Module.initialFault?
  rw [renamed.typeOf, renamed.literal?]

theorem checkGlobals : next.checkGlobals = m.checkGlobals := by
  unfold Module.checkGlobals
  rw [renamed.globals, renamed.global?, renamed.initialFault?]

/-- **Validation finds the same in modules whose globals and functions go by the same names.** -/
theorem validate
    (printed : ∀ global ∈ m.globals, (Printer.of next).name global = (Printer.of m).name global)
    (stored : ∀ function ∈ m.functions, next.storedName function = m.storedName function) :
    next.validate = m.validate := by
  unfold Module.validate
  rw [renamed.checkEmptyBlocks, renamed.checkEarlyTerminators, renamed.checkTermination,
    renamed.checkBranchToEntry, renamed.checkEntryPhi, renamed.checkInstructions,
    renamed.checkFunctionNames stored, renamed.checkGlobalNames printed stored,
    renamed.checkGlobals]

end Module.Renamed

/-! ### Reports -/

namespace Printer.Alike

variable {printer other : Printer} (alike : printer.Alike other)
include alike

theorem faultMessage (fault : Fault) : fault.message other = fault.message printer := by
  rw [Fault.message.eq_def, Fault.message.eq_def, alike.identifier]

theorem siteTrace (site : Site) : site.trace other = site.trace printer := by
  rw [Site.trace.eq_def, Site.trace.eq_def, alike.functionTrace, alike.blockTrace,
    alike.instructionTrace, alike.globalTrace]

theorem findingMessage (finding : Finding) : finding.message other = finding.message printer :=
  alike.faultMessage finding.fault

theorem findingTrace (finding : Finding) : finding.trace other = finding.trace printer :=
  alike.siteTrace finding.site

theorem findingText (finding : Finding) : finding.text other = finding.text printer := by
  unfold Finding.text
  rw [alike.findingMessage, alike.findingTrace]

end Printer.Alike

end SsaAmd64
