/-
**Calls.**

The argument area is reserved before the arguments are placed and released after the call. What goes
to memory is written first, since copying goes through `%rax`; register arguments are loaded last,
so that nothing overwrites them before the call.
-/

import SsaAmd64.Lowering.Transfer

namespace SsaAmd64

namespace Lowering

open Asm

/-- Changes the stack pointer by a size, unless the size is zero. -/
def adjustStack (operation : Arithmetic) (size : Nat) : List Line :=
  if size = 0 then []
  else [.arithmetic operation .quad (.immediate (signed64 size)) (.full .rsp)]

/-- Writes the part of an argument that goes to memory: a stack argument, or a copy, the address of
which may be a stack argument in turn. -/
def placeInMemory (lowering : Lowering) (argument : ValueId) (plan : ArgumentPlan) :
    Except Failure (List Line) := do
  let size ← lowering.sizeOf argument
  match plan.copy, plan.place with
  | some copy, .stack offset =>
    return (← lowering.copyTo argument .rsp (signed64 copy) size) ++
      [.lea (.memory .rsp (signed64 copy)) .rax,
        .mov .quad (.full .rax) (.memory .rsp (signed64 offset))]
  | some copy, _ => lowering.copyTo argument .rsp (signed64 copy) size
  | none, .stack offset => lowering.copyTo argument .rsp (signed64 offset) size
  | none, _ => return []

/-- Loads the part of an argument that goes to a register: the argument itself, or the address of
its copy. -/
def placeInRegister (lowering : Lowering) (argument : ValueId) (plan : ArgumentPlan) :
    Except Failure (List Line) := do
  match plan.copy, plan.place with
  | some copy, .general register => return [.lea (.memory .rsp (signed64 copy)) register]
  | none, .general register => lowering.loadInt argument register false
  | none, .vector register companion =>
    return (← lowering.loadInt argument .rax false) ++
      .mov .quad (.full .rax) (.full register) ::
      (companion.toList.map fun other => .mov .quad (.full .rax) (.full other))
  | _, _ => return []

/-- Loads the address of the home slot for a result in memory. -/
def passResultAddress (lowering : Lowering) (instruction : ValueId) (plan : CallPlan) :
    Except Failure (List Line) := do
  if plan.result = some .memory then
    let displacement ← lowering.slot instruction
    return [.lea (.memory .rbp displacement) lowering.convention.hiddenRegister]
  else return []

/-- A variadic callee of System V is told in `%al` how many vector registers are in use. -/
def passVectorCount (lowering : Lowering) (variadic : Bool) (plan : CallPlan) : List Line :=
  if variadic && lowering.convention = .systemV then
    [.mov .long (.immediate plan.vectorCount) (.register .rax .long)]
  else []

/-- Stores the result of a call, unless it is in memory already. -/
def storeResult (lowering : Lowering) (instruction : ValueId) (plan : CallPlan) :
    Except Failure (List Line) := do
  if lowering.subject.producesValue instruction then
    match plan.result with
    | some .integer => lowering.storeRegister .rax instruction
    | some .vector =>
      return .mov .quad (.full (.xmm 0)) (.full .rax) ::
        (← lowering.storeRegister .rax instruction)
    | _ => return []
  else return []

/-- The function that a call names. -/
def callee (lowering : Lowering) (instruction : ValueId) :
    Except Failure (ValueId × Function) :=
  match lowering.subject.operand? instruction 0 with
  | some id =>
    match lowering.subject.function? id with
    | some function => .ok (id, function)
    | none => unsupported (.indirectCall instruction)
  | none => unsupported (.indirectCall instruction)

/-- The code of a call. -/
def call (lowering : Lowering) (instruction : ValueId) : Except Failure (List Line) := do
  let (callee, function) ← lowering.callee instruction
  let arguments := lowering.trailingValues instruction
  let plan ← (lowering.convention.plan (arguments.map lowering.subject.typeOf)
    function.signature.result).mapError .abi
  let placed := arguments.zip plan.arguments
  let toMemory ← placed.mapM fun (argument, plan) => lowering.placeInMemory argument plan
  let toRegisters ← placed.mapM fun (argument, plan) => lowering.placeInRegister argument plan
  let resultAddress ← lowering.passResultAddress instruction plan
  let result ← lowering.storeResult instruction plan
  return adjustStack .sub plan.stackSize ++ toMemory.flatten ++ toRegisters.flatten ++
    resultAddress ++ lowering.passVectorCount function.signature.variadic plan ++
    [.call (lowering.symbols.symbol callee)] ++ adjustStack .add plan.stackSize ++ result

end Lowering

end SsaAmd64
