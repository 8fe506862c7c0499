/-
**What validation finds wrong.**

A finding names the function, block, instruction or global at fault and the rule it breaks. Its
texts are rendered from the module in which it was found.

* `Fault.message`: which rule is broken;
* `Finding.trace`, `Finding.text`: where, and both together.
-/

import SsaAmd64.Ir.Printer

namespace SsaAmd64

/-- Kinds of types that a rule can ask for. -/
inductive Demand where
  | int
  | float
  | pointer
  | label
  | function
  /-- An integer of one bit. -/
  | bit
deriving DecidableEq

/-- The rules of a module, each with what breaks it. -/
inductive Fault where
  | emptyBlock
  | earlyTerminator
  | unterminatedBlock
  | branchToEntry
  | phiInEntry
  | removedOperand (value : ValueId)
  | foreignOperand (value : ValueId)
  | undominatedOperand (value : ValueId)
  | missingOperand (slot : Nat)
  | wrongType (demand : Demand) (found : Ty)
  | mismatch (first second : Ty)
  | notFirstClass (type : Ty)
  | pointeeNotFirstClass
  | floatRequired (operation : BinaryOp)
  | intRequired (operation : BinaryOp)
  | notWidening
  | notNarrowing
  | floatConversion (conversion : Conversion) (source target : Ty)
  | noIndex
  | indexThroughPointer (index : Nat)
  | indexNotLiteral (index : Nat)
  | indexWithoutField (index : Nat)
  | indexInvalid (index : Nat)
  | tooManyArguments (callee : ValueId)
  | tooFewArguments (callee : ValueId)
  | argumentNotFirstClass (index : Nat) (type : Ty)
  | returnExpected (type : Ty)
  | returnUnexpected
  | incompletePair (index : Nat)
  | incomingNotBlock (index : Nat)
  | impossibleIncoming (block : ValueId)
  | duplicateIncoming (block : ValueId)
  | unavailableIncoming (value block : ValueId)
  | missingIncoming (block : ValueId)
  | emptyFunctionName
  | duplicateFunctionName (name : String)
  | globalNamedAsFunction (name : String)
  | initialiserNotLiteral
deriving DecidableEq

/-- What is at fault. -/
inductive Site where
  | function (id : ValueId)
  | block (id : ValueId)
  | instruction (id : ValueId)
  | global (id : ValueId)
deriving DecidableEq

structure Finding where
  site : Site
  fault : Fault
deriving DecidableEq

def Demand.text : Demand → String
  | int => "int type"
  | float => "float type"
  | pointer => "pointer type"
  | label => "label type"
  | function => "function type"
  | bit => "type i1"

namespace Fault

/-- A text between accents. -/
def quoted (text : String) : String :=
  "`" ++ text ++ "`"

/-- Which rule is broken. -/
def message (printer : Printer) : Fault → String
  | emptyBlock => "Empty block"
  | earlyTerminator => "Terminating instruction in middle of block"
  | unterminatedBlock => "Non-terminating block"
  | branchToEntry => "Branch to entry block"
  | phiInEntry => "Phi node in entry block"
  | removedOperand value =>
    "Operand " ++ quoted (printer.identifier value) ++ " has been removed from its block"
  | foreignOperand value =>
    "Operand " ++ quoted (printer.identifier value) ++ " belongs to another function"
  | undominatedOperand value =>
    "Instruction is not dominated by operand " ++ quoted (printer.identifier value)
  | missingOperand slot => "Missing operand " ++ toString slot
  | wrongType demand found => "Expected " ++ demand.text ++ ", found " ++ quoted found.text
  | mismatch first second =>
    "Mismatched types: " ++ quoted first.text ++ " and " ++ quoted second.text
  | notFirstClass type => "Illegal non-first class type " ++ quoted type.text
  | pointeeNotFirstClass => "Pointer element type is not first class"
  | floatRequired operation => quoted operation.name ++ " requires float"
  | intRequired operation => quoted operation.name ++ " requires int"
  | notWidening => "sext/zext requires src width < dest width"
  | notNarrowing => "trunc requires src width > dest width"
  | floatConversion conversion source target =>
    conversion.name ++ " cannot convert from " ++ source.text ++ " to " ++ target.text
  | noIndex => "GEP requires at least one index"
  | indexThroughPointer index =>
    "Index " ++ toString index ++
      " dereferences a pointer (only the index 0 may dereference a pointer)"
  | indexNotLiteral index => "Expected int literal at index " ++ toString index
  | indexWithoutField index =>
    "Index " ++ toString index ++ " has value greater than number of struct fields"
  | indexInvalid index => "Index " ++ toString index ++ " is invalid"
  | tooManyArguments callee =>
    "Too many arguments to function " ++ quoted (printer.identifier callee)
  | tooFewArguments callee =>
    "Too few arguments to function " ++ quoted (printer.identifier callee)
  | argumentNotFirstClass index type =>
    "Argument " ++ toString index ++ " has non-first class type " ++ quoted type.text
  | returnExpected type => "Expected return value of type " ++ quoted type.text
  | returnUnexpected => "Unexpected return value in void function"
  | incompletePair index => "Incomplete incoming pair " ++ toString index
  | incomingNotBlock index => "Expected block at incoming pair " ++ toString index
  | impossibleIncoming block => "Impossible incoming block " ++ quoted (printer.identifier block)
  | duplicateIncoming block => "Duplicate incoming block " ++ quoted (printer.identifier block)
  | unavailableIncoming value block =>
    "Value " ++ quoted (printer.identifier value) ++ " must dominate block " ++
      quoted (printer.identifier block)
  | missingIncoming block => "Missing incoming block " ++ quoted (printer.identifier block)
  | emptyFunctionName => "Empty function name"
  | duplicateFunctionName name => "Duplicate function name " ++ quoted name
  | globalNamedAsFunction name => "Global name " ++ quoted name ++ " is also a function name"
  | initialiserNotLiteral => "Literal initialiser does not hold a literal"

end Fault

namespace Site

def id : Site → ValueId
  | function id | block id | instruction id | global id => id

/-- The word that stands for a site in a report. -/
def word : Site → String
  | function _ => "Function"
  | block _ => "Block"
  | instruction _ => "Instr"
  | global _ => "Global"

/-- Where a site stands in its module. -/
def trace (printer : Printer) : Site → String
  | function id => printer.functionTrace id
  | block id => printer.blockTrace id
  | instruction id => printer.instructionTrace id
  | global id => printer.globalTrace id

end Site

namespace Finding

def message (printer : Printer) (finding : Finding) : String :=
  finding.fault.message printer

def trace (printer : Printer) (finding : Finding) : String :=
  finding.site.trace printer

/-- The full report of a finding. -/
def text (printer : Printer) (finding : Finding) : String :=
  finding.site.word ++ "Error: " ++ finding.message printer ++ "\n -> " ++ finding.trace printer

end Finding

end SsaAmd64
