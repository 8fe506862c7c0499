/-
**The rules of instructions.**

Which operands each kind of instruction needs, and of which types.

* `RuleContext.checkGep`: the indices of an address computation, step by step;
* `RuleContext.checkRules`: the rule of an instruction of any kind.
-/

import SsaAmd64.Validation.Phi

namespace SsaAmd64

namespace RuleContext

def checkLoad (context : RuleContext) (instruction : Instruction) : Except Fault Unit := do
  let element ← Fault.demandPointer (← context.operandType instruction 0)
  Fault.pointeeNotFirstClass.ifNot element.isFirstClass

def checkStore (context : RuleContext) (instruction : Instruction) : Except Fault Unit := do
  let element ← Fault.demandPointer (← context.operandType instruction 0)
  Fault.demandSame element (← context.operandType instruction 1)
  Fault.pointeeNotFirstClass.ifNot element.isFirstClass

def checkBinary (context : RuleContext) (instruction : Instruction) (operation : BinaryOp) :
    Except Fault Unit := do
  let type ← context.operandType instruction 0
  Fault.demandSame type (← context.operandType instruction 1)
  if operation.isFloat then (Fault.floatRequired operation).ifNot type.isFloat
  else (Fault.intRequired operation).ifNot type.isInt

def checkCompare (context : RuleContext) (instruction : Instruction) : Except Fault Unit := do
  let type ← context.operandType instruction 0
  Fault.demandSame type (← context.operandType instruction 1)
  let _ ← Fault.demandInt type

/-- Checks a conversion between two types. -/
def checkConversion (conversion : Conversion) (source target : Ty) : Except Fault Unit :=
  match conversion with
  | .sext | .zext => do
    let narrow ← Fault.demandInt source
    let wide ← Fault.demandInt target
    Fault.notWidening.ifNot (narrow < wide)
  | .trunc => do
    let wide ← Fault.demandInt source
    let narrow ← Fault.demandInt target
    Fault.notNarrowing.ifNot (narrow < wide)
  | .bitcast => do
    let _ ← Fault.demandPointer source
    let _ ← Fault.demandPointer target
  | .fext => do
    let narrow ← Fault.demandFloat source
    let wide ← Fault.demandFloat target
    (Fault.floatConversion conversion source target).ifNot (narrow.extendsTo wide)
  | .ftrunc => do
    let wide ← Fault.demandFloat source
    let narrow ← Fault.demandFloat target
    (Fault.floatConversion conversion source target).ifNot (wide.truncatesTo narrow)
  | .ftoui | .ftosi => do
    let _ ← Fault.demandFloat source
    let _ ← Fault.demandInt target
  | .uitof | .sitof => do
    let _ ← Fault.demandInt source
    let _ ← Fault.demandFloat target
  | .ptrtoint => do
    let _ ← Fault.demandPointer source
    let _ ← Fault.demandInt target
  | .inttoptr => do
    let _ ← Fault.demandInt source
    let _ ← Fault.demandPointer target

/-- One step of an address computation: the type that an index leads to. -/
def checkStep (context : RuleContext) (position : Nat) (index : ValueId) :
    Ty → Except Fault Ty
  | .pointer element =>
    if position = 0 then .ok element else .error (.indexThroughPointer position)
  | .array _ element => .ok element
  | .struct _ fields =>
    match (context.subject.literal? index).bind Literal.natValue? with
    | none => .error (.indexNotLiteral position)
    | some value =>
      match fields[value]? with
      | some field => .ok field
      | none => .error (.indexWithoutField position)
  | _ => .error (.indexInvalid position)

/-- Checks the indices of an address computation from a position on. -/
def checkIndices (context : RuleContext) (position : Nat) : List Slot → Ty → Except Fault Unit
  | [], _ => .ok ()
  | none :: _, _ => .error (.missingOperand (position + 1))
  | some index :: indices, type => do
    let _ ← Fault.demandInt (context.subject.typeOf index)
    context.checkIndices (position + 1) indices (← context.checkStep position index type)

def checkGep (context : RuleContext) (instruction : Instruction) : Except Fault Unit := do
  let base ← context.operandType instruction 0
  let _ ← Fault.demandPointer base
  Fault.noIndex.ifNot !instruction.trailing.isEmpty
  context.checkIndices 0 instruction.trailing base

/-- Checks the arguments of a call from a position on against the parameters that remain. -/
def checkArguments (context : RuleContext) (position : Nat) :
    List Slot → List Ty → Except Fault Unit
  | [], _ => .ok ()
  | none :: _, _ => .error (.missingOperand (position + 1))
  | some argument :: arguments, parameters => do
    let type := context.subject.typeOf argument
    (Fault.argumentNotFirstClass position type).ifNot type.isFirstClass
    match parameters with
    | parameter :: _ => Fault.demandSame type parameter
    | [] => pure ()
    context.checkArguments (position + 1) arguments parameters.tail

def checkCall (context : RuleContext) (instruction : Instruction) : Except Fault Unit := do
  let callee ← Fault.demandOperand instruction 0
  let signature ← Fault.demandFunction (context.subject.typeOf callee)
  let count := instruction.trailing.length
  (Fault.tooManyArguments callee).ifNot
    (signature.variadic || count ≤ signature.parameters.length)
  (Fault.tooFewArguments callee).ifNot (signature.parameters.length ≤ count)
  context.checkArguments 0 instruction.trailing signature.parameters

def checkCondbr (context : RuleContext) (instruction : Instruction) : Except Fault Unit := do
  Fault.demandBit (← context.operandType instruction 0)
  Fault.demandLabel (← context.operandType instruction 1)
  Fault.demandLabel (← context.operandType instruction 2)

/-- The type that the function has to return. -/
def resultType (context : RuleContext) : Ty :=
  match context.subject.function? context.function with
  | some function => function.signature.result
  | none => .void

def checkRet (context : RuleContext) (instruction : Instruction) : Except Fault Unit :=
  let expected := context.resultType
  match instruction.operand 0 with
  | none => (Fault.returnExpected expected).ifNot expected.isVoid
  | some value =>
    if expected.isVoid then .error .returnUnexpected
    else (Fault.returnExpected expected).ifNot (context.subject.typeOf value = expected)

/-- Checks an instruction in a block by the rule of its kind. -/
def checkRules (context : RuleContext) (block : ValueId) (instruction : Instruction) :
    Except Fault Unit :=
  match instruction.opcode with
  | .alloc storage => Fault.demandFirstClass storage
  | .load => context.checkLoad instruction
  | .store => context.checkStore instruction
  | .binary operation => context.checkBinary instruction operation
  | .compare _ => context.checkCompare instruction
  | .convert conversion target => do
    checkConversion conversion (← context.operandType instruction 0) target
  | .gep => context.checkGep instruction
  | .call => context.checkCall instruction
  | .br => do Fault.demandLabel (← context.operandType instruction 0)
  | .condbr => context.checkCondbr instruction
  | .ret => context.checkRet instruction
  | .phi type => do
    Fault.demandFirstClass type
    context.checkPhi block type instruction.incoming
  | .unreachable => .ok ()

end RuleContext

end SsaAmd64
