/-
**Meaning of integer programs.**

An interpreter of functions that compute with integers of 1, 8, 16, 32 and 64 bits. A value is the
number that its bits stand for. Arithmetic wraps around at the width of its operands; what has no
meaning, such as a division by zero, stops the interpreter without a result.

* `BinaryOp.evaluate`, `Predicate.holds`, `Conversion.evaluate`: operations on patterns of bits;
* `Module.enter`: control passes to a block, and its phis take their values all at once;
* `Module.advance`, `Module.run`, `Module.interpret`: one instruction, many, and a whole function;
* `Module.IsIntegral`: the functions that the interpreter describes.
-/

import SsaAmd64.Ir.Module

namespace SsaAmd64

/-! ### Operations -/

/-- The quotient of the least integer by minus one does not fit. -/
def BinaryOp.Overflows {bits : Nat} (first second : BitVec bits) : Prop :=
  first = BitVec.intMin bits ∧ second = BitVec.allOnes bits

instance {bits : Nat} (first second : BitVec bits) :
    Decidable (BinaryOp.Overflows first second) :=
  inferInstanceAs (Decidable (_ ∧ _))

/-- The result of an operation, where it has one. -/
def BinaryOp.evaluate {bits : Nat} (first second : BitVec bits) : BinaryOp → Option (BitVec bits)
  | .add => some (first + second)
  | .sub => some (first - second)
  | .mul => some (first * second)
  | .and => some (first &&& second)
  | .or => some (first ||| second)
  | .xor => some (first ^^^ second)
  | .udiv => if second = 0 then none else some (first / second)
  | .urem => if second = 0 then none else some (first % second)
  | .sdiv =>
    if second = 0 ∨ BinaryOp.Overflows first second then none else some (first.sdiv second)
  | .srem =>
    if second = 0 ∨ BinaryOp.Overflows first second then none else some (first.srem second)
  | .shl => if second.toNat < bits then some (first <<< second.toNat) else none
  | .lshr => if second.toNat < bits then some (first >>> second.toNat) else none
  | .ashr => if second.toNat < bits then some (first.sshiftRight second.toNat) else none
  | .fadd | .fsub | .fmul | .fdiv | .frem => none

/-- Whether a comparison comes out true. -/
def Predicate.holds {bits : Nat} (first second : BitVec bits) : Predicate → Bool
  | .eq => first = second
  | .neq => first ≠ second
  | .ugt => second < first
  | .uge => second ≤ first
  | .ult => first < second
  | .ule => first ≤ second
  | .sgt => second.slt first
  | .sge => second.sle first
  | .slt => first.slt second
  | .sle => first.sle second

/-- The result of a conversion between integers. -/
def Conversion.evaluate {bits : Nat} (target : Nat) (value : BitVec bits) :
    Conversion → Option (BitVec target)
  | .sext => some (value.signExtend target)
  | .zext | .trunc => some (value.setWidth target)
  | _ => none

/-- The values that have been computed. -/
abbrev Env := ValueId → Option Nat

namespace Env

def set (env : Env) (id : ValueId) (value : Nat) : Env :=
  fun other => if other = id then some value else env other

/-- Gives values to several ids at once. -/
def assign (env : Env) (values : List (ValueId × Nat)) : Env :=
  fun id => (values.lookup id).or (env id)

end Env

/-- Where an interpretation stands: in a block, before the instructions that remain. -/
structure Config where
  env : Env
  block : ValueId
  rest : List ValueId

inductive Outcome where
  | running (config : Config)
  | returned (value : Nat)

namespace Module

/-- The width of the type of a value. -/
def widthOf (m : Module) (id : ValueId) : Nat :=
  (m.typeOf id).width?.getD 0

/-- The value of an operand. -/
def valueIn (m : Module) (env : Env) (id : ValueId) : Option Nat :=
  match m.literal? id with
  | some literal => literal.natValue?
  | none => env id

/-! ### Instructions -/

def binaryIn (m : Module) (env : Env) (id : ValueId) (operation : BinaryOp) : Option Nat := do
  let left ← m.operand? id 0
  let right ← m.operand? id 1
  let first ← m.valueIn env left
  let second ← m.valueIn env right
  let bits := m.widthOf left
  let result ← operation.evaluate (BitVec.ofNat bits first) (BitVec.ofNat bits second)
  return result.toNat

def compareIn (m : Module) (env : Env) (id : ValueId) (predicate : Predicate) : Option Nat := do
  let left ← m.operand? id 0
  let right ← m.operand? id 1
  let first ← m.valueIn env left
  let second ← m.valueIn env right
  let bits := m.widthOf left
  return (predicate.holds (BitVec.ofNat bits first) (BitVec.ofNat bits second)).toNat

def convertIn (m : Module) (env : Env) (id : ValueId) (conversion : Conversion) (target : Ty) :
    Option Nat := do
  let operand ← m.operand? id 0
  let value ← m.valueIn env operand
  let bits ← target.width?
  let result ← conversion.evaluate bits (BitVec.ofNat (m.widthOf operand) value)
  return result.toNat

/-! ### Control -/

/-- The phis of a block. -/
def phisOf (m : Module) (block : ValueId) : List ValueId :=
  (m.instructionsOf block).filter (m.hasOpcode Opcode.isPhi)

/-- The value that a phi takes where control comes from a block. -/
def incomingIn (m : Module) (env : Env) (source phi : ValueId) : Option (ValueId × Nat) := do
  let instruction ← m.instruction? phi
  let (slot, _) ← instruction.incoming.find? fun pair => pair.2 = some source
  let value ← m.valueIn env (← slot)
  return (phi, value)

/-- Control passes from one block to another. All phis of the target read their values before any
of them takes its own. -/
def enter (m : Module) (env : Env) (source target : ValueId) : Option Outcome :=
  if (m.block? target).isSome then do
    let values ← (m.phisOf target).mapM (m.incomingIn env source)
    return .running ⟨env.assign values, target, m.instructionsOf target⟩
  else none

/-- What the next instruction does. -/
def advance (m : Module) (config : Config) : Option Outcome :=
  match config.rest with
  | [] => none
  | id :: rest => do
    match ← m.opcode? id with
    | .binary operation =>
      let value ← m.binaryIn config.env id operation
      return .running { config with env := config.env.set id value, rest }
    | .compare predicate =>
      let value ← m.compareIn config.env id predicate
      return .running { config with env := config.env.set id value, rest }
    | .convert conversion target =>
      let value ← m.convertIn config.env id conversion target
      return .running { config with env := config.env.set id value, rest }
    | .phi _ => return .running { config with rest }
    | .br => m.enter config.env config.block (← m.operand? id 0)
    | .condbr =>
      let condition ← m.valueIn config.env (← m.operand? id 0)
      let target ← m.operand? id (if condition = 0 then 2 else 1)
      m.enter config.env config.block target
    | .ret =>
      let value ← m.valueIn config.env (← m.operand? id 0)
      return .returned value
    | _ => none

/-- The result after at most a number of instructions. -/
def run (m : Module) : (steps : Nat) → Config → Option Nat
  | 0, _ => none
  | steps + 1, config =>
    match m.advance config with
    | some (.running next) => m.run steps next
    | some (.returned value) => some value
    | none => none

/-- What a function returns for arguments, after at most a number of instructions. -/
def interpret (m : Module) (function : ValueId) (arguments : List Nat) (steps : Nat) :
    Option Nat := do
  let entry ← m.entryOf? function
  m.run steps ⟨Env.assign (fun _ => none) ((m.parametersOf function).zip arguments), entry,
    m.instructionsOf entry⟩

end Module

/-! ### Integral functions -/

/-- The widths of integers that registers hold. -/
def registerWidths : List Nat := [1, 8, 16, 32, 64]

/-- Integers of such a width. -/
def Ty.IsIntegral (type : Ty) : Prop :=
  ∃ width ∈ registerWidths, type = .int width

instance (type : Ty) : Decidable type.IsIntegral :=
  inferInstanceAs (Decidable (∃ width ∈ registerWidths, type = .int width))

/-- Kinds of instructions that compute with integers. -/
def Opcode.isIntegral : Opcode → Bool
  | .binary operation => !operation.isFloat
  | .compare _ => true
  | .convert conversion _ => (conversion matches .sext | .zext | .trunc)
  | .phi _ | .br | .condbr | .ret | .unreachable => true
  | _ => false

/-- **A function that computes with integers only**: its parameters, its result, the results of its
instructions and all their operands but labels. -/
structure Module.IsIntegral (m : Module) (function : ValueId) : Prop where
  signature : ∀ held, m.function? function = some held →
    held.signature.result.IsIntegral ∧ ∀ type ∈ held.signature.parameters, type.IsIntegral
  opcodes : ∀ id ∈ m.bodyOf function, m.hasOpcode Opcode.isIntegral id = true
  results : ∀ id ∈ m.bodyOf function, m.hasOpcode Opcode.isValue id = true →
    (m.typeOf id).IsIntegral
  operands : ∀ id ∈ m.bodyOf function, ∀ value, some value ∈ m.operandsOf id →
    m.typeOf value ≠ .label → (m.typeOf value).IsIntegral

theorem Module.isIntegral_iff (m : Module) (function : ValueId) :
    m.IsIntegral function ↔
      (∀ held ∈ m.function? function, held.signature.result.IsIntegral ∧
        ∀ type ∈ held.signature.parameters, type.IsIntegral) ∧
      ∀ id ∈ m.bodyOf function, m.hasOpcode Opcode.isIntegral id = true ∧
        (m.hasOpcode Opcode.isValue id = true → (m.typeOf id).IsIntegral) ∧
        ∀ slot ∈ m.operandsOf id, ∀ value ∈ slot,
          m.typeOf value ≠ .label → (m.typeOf value).IsIntegral := by
  constructor
  · rintro ⟨signature, opcodes, results, operands⟩
    refine ⟨signature, fun id member => ⟨opcodes id member, results id member, ?_⟩⟩
    rintro slot listed value rfl
    exact operands id member value listed
  · rintro ⟨signature, body⟩
    exact ⟨signature, fun id member => (body id member).1, fun id member => (body id member).2.1,
      fun id member value listed => (body id member).2.2 _ listed value rfl⟩

instance (m : Module) (function : ValueId) : Decidable (m.IsIntegral function) :=
  decidable_of_iff _ (m.isIntegral_iff function).symm

end SsaAmd64
