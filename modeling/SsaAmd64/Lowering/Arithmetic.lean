/-
**Arithmetic, comparisons and conversions.**

Integer operations run on 64-bit registers after the operands have been extended by sign or by
zeros; only the low bytes of the result are kept, which is exact for wrapping arithmetic at every
width.
-/

import SsaAmd64.Lowering.Transfer

namespace SsaAmd64

namespace Lowering

open Asm

/-- The condition that a comparison leaves behind. -/
def condition : Predicate → Condition
  | .eq => .equal
  | .neq => .notEqual
  | .ugt => .above
  | .uge => .aboveEqual
  | .ult => .below
  | .ule => .belowEqual
  | .sgt => .greater
  | .sge => .greaterEqual
  | .slt => .less
  | .sle => .lessEqual

/-- Clears everything above the lowest bit in `%rax`, for a result of one bit. -/
def maskBit (type : Ty) : List Line :=
  if type = .int 1 then [.arithmetic .and .quad (.immediate 1) (.full .rax)] else []

/-- An operation on `%rax` and `%rcx`. -/
def onRegisters (operation : Arithmetic) : List Line :=
  [.arithmetic operation .quad (.full .rcx) (.full .rax)]

def shiftRegister (operation : Shift) : List Line :=
  [.shift operation .quad .rax]

/-- A division of `%rax` by `%rcx`: the quotient in `%rax`, the remainder in `%rdx`. -/
def divideRegisters (signed : Bool) : List Line :=
  [if signed then .cqto
    else .arithmetic .xor .long (.register .rdx .long) (.register .rdx .long),
    .divide signed .quad (.full .rcx)]

/-- Takes the remainder of a division as the result. -/
def takeRemainder : List Line :=
  [.mov .quad (.full .rdx) (.full .rax)]

/-- The code of an operation on `%rax` and `%rcx`; there is none on floats. -/
def operationLines : BinaryOp → Option (List Line)
  | .add => some (onRegisters .add)
  | .sub => some (onRegisters .sub)
  | .mul => some (onRegisters .imul)
  | .and => some (onRegisters .and)
  | .or => some (onRegisters .or)
  | .xor => some (onRegisters .xor)
  | .shl => some (shiftRegister .left)
  | .lshr => some (shiftRegister .logicalRight)
  | .ashr => some (shiftRegister .arithmeticRight)
  | .sdiv => some (divideRegisters true)
  | .udiv => some (divideRegisters false)
  | .srem => some (divideRegisters true ++ takeRemainder)
  | .urem => some (divideRegisters false ++ takeRemainder)
  | .fadd | .fsub | .fmul | .fdiv | .frem => none

/-- The code of a binary operation. -/
def binary (lowering : Lowering) (instruction : ValueId) (operation : BinaryOp) :
    Except Failure (List Line) := do
  let type := lowering.subject.typeOf instruction
  if type.width?.any fun width => 64 < width then
    unsupported (.wideArithmetic type instruction)
  let left ← lowering.operand instruction 0
  let right ← lowering.operand instruction 1
  let loads := (← lowering.loadInt left .rax operation.isSigned) ++
    (← lowering.loadInt right .rcx operation.isSigned)
  match operationLines operation with
  | none => unsupported (.floatOperation operation instruction)
  | some lines =>
    return loads ++ lines ++ maskBit type ++ (← lowering.storeRegister .rax instruction)

/-- The code of a comparison. -/
def compare (lowering : Lowering) (instruction : ValueId) (predicate : Predicate) :
    Except Failure (List Line) := do
  let left ← lowering.operand instruction 0
  let right ← lowering.operand instruction 1
  let loads := (← lowering.loadInt left .rax predicate.isSigned) ++
    (← lowering.loadInt right .rcx predicate.isSigned)
  return loads ++ onRegisters .cmp ++ [.set (condition predicate) .rax] ++
    (← lowering.storeRegister .rax instruction)

/-- A conversion between integers and pointers. -/
def convertInt (lowering : Lowering) (value : ValueId) (target : Ty) (signed : Bool) :
    Except Failure (List Line) := do
  let _ ← lowering.registerWidth target
  return (← lowering.loadInt value .rax signed) ++ maskBit target

/-- A conversion between float formats, or from a float. -/
def convertFloat (lowering : Lowering) (value : ValueId) (operation : VectorConversion)
    (result : Register) : Except Failure (List Line) := do
  return (← lowering.loadInt value .rax false) ++
    [.mov .quad (.full .rax) (.full (.xmm 0)), .vector operation (.xmm 0) result]

/-- Whether there is no code between floats and an integer of a type: none beyond 64 bits, and none
for unsigned integers of 64 bits. -/
def lacksFloatConversion (type : Ty) (isUnsigned : Bool) : Bool :=
  let width := type.width?.getD 0
  64 < width || (isUnsigned && width == 64)

/-- The code of a conversion, up to the result in `%rax`. -/
def conversionLines (lowering : Lowering) (instruction value : ValueId) (conversion : Conversion)
    (target : Ty) : Except Failure (List Line) := do
  let source := lowering.subject.typeOf value
  match conversion with
  | .sext => lowering.convertInt value target true
  | .zext | .trunc | .bitcast | .ptrtoint | .inttoptr => lowering.convertInt value target false
  | .fext =>
    return (← lowering.convertFloat value .singleToDouble (.xmm 0)) ++
      [.mov .quad (.full (.xmm 0)) (.full .rax)]
  | .ftrunc =>
    return (← lowering.convertFloat value .doubleToSingle (.xmm 0)) ++
      [.mov .quad (.full (.xmm 0)) (.full .rax)]
  | .ftosi | .ftoui =>
    if lacksFloatConversion target (conversion = .ftoui) then
      unsupported (.conversionTo conversion target instruction)
    let operation :=
      if source.format? = some .single then VectorConversion.singleToInt else .doubleToInt
    return (← lowering.convertFloat value operation .rax) ++ maskBit target
  | .sitof | .uitof =>
    if lacksFloatConversion source (conversion = .uitof) then
      unsupported (.conversionFrom conversion source instruction)
    let operation :=
      if target.format? = some .single then VectorConversion.intToSingle else .intToDouble
    return (← lowering.loadInt value .rax (conversion = .sitof)) ++
      [.vector operation .rax (.xmm 0), .mov .quad (.full (.xmm 0)) (.full .rax)]

/-- The code of a conversion. -/
def convert (lowering : Lowering) (instruction : ValueId) (conversion : Conversion)
    (target : Ty) : Except Failure (List Line) := do
  let value ← lowering.operand instruction 0
  return (← lowering.conversionLines instruction value conversion target) ++
    (← lowering.storeRegister .rax instruction)

end Lowering

end SsaAmd64
