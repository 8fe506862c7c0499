/-
**What the rules of instructions look at.**

The function that is checked, its control flow, and the demands on operands and types that the rules
share. A rule gives the fault that it finds first.
-/

import SsaAmd64.Flow.Cfg
import SsaAmd64.Validation.Fault

namespace SsaAmd64

/-- A function of a module, with the analyses that its rules share. -/
structure RuleContext where
  subject : Module
  function : ValueId
  cfg : Cfg
  tree : DominatorTree ValueId

namespace RuleContext

def of (m : Module) (function : ValueId) : RuleContext :=
  let cfg := Cfg.of m function
  ⟨m, function, cfg, cfg.dominatorTree⟩

end RuleContext

namespace Fault

/-- The value in a slot, which has to be filled. -/
def demandOperand (instruction : Instruction) (slot : Nat) : Except Fault ValueId :=
  match instruction.operand slot with
  | some value => .ok value
  | none => .error (.missingOperand slot)

/-- Gives a fault unless a condition holds. -/
def ifNot (fault : Fault) (condition : Bool) : Except Fault Unit :=
  if condition then .ok () else .error fault

def demandSame (first second : Ty) : Except Fault Unit :=
  (mismatch first second).ifNot (first = second)

def demandFirstClass (type : Ty) : Except Fault Unit :=
  (notFirstClass type).ifNot type.isFirstClass

/-- The width of an integer type. -/
def demandInt (type : Ty) : Except Fault Nat :=
  match type.width? with
  | some width => .ok width
  | none => .error (wrongType .int type)

/-- The format of a float type. -/
def demandFloat (type : Ty) : Except Fault FloatFormat :=
  match type.format? with
  | some format => .ok format
  | none => .error (wrongType .float type)

/-- What a pointer type points to. -/
def demandPointer (type : Ty) : Except Fault Ty :=
  match type.pointee? with
  | some element => .ok element
  | none => .error (wrongType .pointer type)

/-- The signature of a function type. -/
def demandFunction (type : Ty) : Except Fault Signature :=
  match type.signature? with
  | some signature => .ok signature
  | none => .error (wrongType .function type)

def demandLabel (type : Ty) : Except Fault Unit :=
  (wrongType .label type).ifNot (type = .label)

def demandBit (type : Ty) : Except Fault Unit :=
  (wrongType .bit type).ifNot (type = .int 1)

end Fault

/-- The type of the value in a slot, which has to be filled. -/
def RuleContext.operandType (context : RuleContext) (instruction : Instruction) (slot : Nat) :
    Except Fault Ty :=
  (Fault.demandOperand instruction slot).map context.subject.typeOf

end SsaAmd64
