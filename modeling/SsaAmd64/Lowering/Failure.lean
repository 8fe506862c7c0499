/-
**Why no code is generated.**

Either the module is not valid, or a type cannot be laid out or passed, or a construct is not
supported. Unsupported constructs name what they are about; their texts are rendered from the
module.
-/

import SsaAmd64.Abi.CallPlan
import SsaAmd64.Validation.Fault

namespace SsaAmd64

/-- Constructs for which there is no code. -/
inductive Unsupported where
  | functionName (function : ValueId)
  | duplicateSymbol (symbol : String) (first second : ValueId)
  | addressStorage (size : Nat) (global : ValueId)
  | initialiserSize (literalSize size : Nat) (global : ValueId)
  | blockAsValue (block function : ValueId)
  | withoutSlot (value function : ValueId)
  | notInRegister (type : Ty) (function : ValueId)
  | missingOperand (slot : Nat) (instruction : ValueId)
  | allocWithoutStorage (instruction : ValueId)
  | wideArithmetic (type : Ty) (instruction : ValueId)
  | floatOperation (operation : BinaryOp) (instruction : ValueId)
  | conversionTo (conversion : Conversion) (target : Ty) (instruction : ValueId)
  | conversionFrom (conversion : Conversion) (source : Ty) (instruction : ValueId)
  | structIndex (instruction : ValueId)
  | addressThrough (type : Ty) (instruction : ValueId)
  | indirectCall (instruction : ValueId)
  | missingCondition (instruction : ValueId)
  | missingTarget (slot : Nat) (instruction : ValueId)
deriving DecidableEq

namespace Unsupported

/-- What is not supported. -/
def construct (printer : Printer) : Unsupported → String
  | functionName function => "function name `" ++ printer.name function ++ "`"
  | duplicateSymbol symbol _ _ => "duplicate symbol `" ++ symbol ++ "`"
  | addressStorage size _ => "address initialiser for " ++ toString size ++ " byte storage"
  | initialiserSize literalSize size _ =>
    "initialiser of " ++ toString literalSize ++ " bytes for " ++ toString size ++ " byte storage"
  | blockAsValue block _ => "block `" ++ printer.identifier block ++ "` used as a value"
  | withoutSlot value _ => "value `" ++ printer.identifier value ++ "` without a stack slot"
  | notInRegister type _ => "`" ++ type.text ++ "` value in a register"
  | missingOperand slot _ => "missing operand " ++ toString slot
  | allocWithoutStorage _ => "alloc without storage"
  | wideArithmetic type _ => "`" ++ type.text ++ "` arithmetic"
  | floatOperation operation _ => "floating-point operation `" ++ operation.name ++ "`"
  | conversionTo conversion target _ => conversion.name ++ " to `" ++ target.text ++ "`"
  | conversionFrom conversion source _ => conversion.name ++ " from `" ++ source.text ++ "`"
  | structIndex _ => "non-constant struct index"
  | addressThrough type _ => "GEP through `" ++ type.text ++ "`"
  | indirectCall _ => "indirect call"
  | missingCondition _ => "branch without condition"
  | missingTarget slot _ => "branch without target " ++ toString slot

/-- Where it stands. -/
def context (printer : Printer) : Unsupported → String
  | functionName function => printer.functionTrace function
  | duplicateSymbol _ first second =>
    "`@" ++ printer.name first ++ "` and `@" ++ printer.name second ++ "` map to the same symbol"
  | addressStorage _ global | initialiserSize _ _ global => printer.globalTrace global
  | blockAsValue _ function | withoutSlot _ function | notInRegister _ function =>
    printer.functionTrace function
  | missingOperand _ instruction | allocWithoutStorage instruction
  | wideArithmetic _ instruction | floatOperation _ instruction
  | conversionTo _ _ instruction | conversionFrom _ _ instruction
  | structIndex instruction | addressThrough _ instruction | indirectCall instruction
  | missingCondition instruction | missingTarget _ instruction =>
    printer.instructionTrace instruction

end Unsupported

/-- Why no code is generated. -/
inductive Failure where
  | invalid (finding : Finding)
  | layout (error : LayoutError)
  | abi (error : AbiError)
  | unsupported (construct : Unsupported)
deriving DecidableEq

/-- The report of a failure, rendered from the module. -/
def Failure.message (printer : Printer) : Failure → String
  | invalid finding => "Cannot generate code for an invalid module: " ++ finding.text printer
  | layout error => error.message
  | abi error => error.message
  | unsupported construct =>
    "Unsupported " ++ construct.construct printer ++ "\n -> " ++ construct.context printer

/-- Fails with an unsupported construct. -/
def unsupported {α : Type} (construct : Unsupported) : Except Failure α :=
  .error (.unsupported construct)

namespace Ty

/-- The size of a type for which code is generated. -/
def sizeInCode (type : Ty) : Except Failure Nat :=
  type.size.mapError .layout

/-- Size and alignment of a type for which code is generated. -/
def extentInCode (type : Ty) : Except Failure Extent :=
  type.extent.mapError .layout

end Ty

end SsaAmd64
