/-
**Functions.**

The code of a function: its prologue, the moves of its parameters into their home slots, and its
blocks in order.

* `Lowering.of`: what the code is made from, where the labels of the blocks come first;
* `Lowering.lines`: the code.
-/

import SsaAmd64.Lowering.Call
import SsaAmd64.Lowering.Edge
import SsaAmd64.Lowering.Memory
import SsaAmd64.Lowering.Data

namespace SsaAmd64

namespace Lowering

open Asm

/-- The registers that every prologue saves, in the order of the pushes. -/
def savedRegisters : List Register := [.rbp, .rbx, .r15]

/-- Holds the address of a result in memory, all through the function. -/
def resultPointer : Register := .r15

/-! ### Entry and exit -/

def prologue (lowering : Lowering) : List Line :=
  savedRegisters.map .push ++ [.mov .quad (.full .rsp) (.full .rbp)] ++
    adjustStack .sub lowering.frame.size ++
    (if lowering.plan.result = some .memory then
      [.mov .quad (.full lowering.convention.hiddenRegister) (.full resultPointer)]
    else [])

def epilogue : List Line :=
  .mov .quad (.full .rbp) (.full .rsp) :: savedRegisters.reverse.map .pop ++ [.ret]

/-- The displacement of an incoming stack argument. -/
def incomingDisplacement (offset : Nat) : Int :=
  Frame.incomingArguments + signed64 offset

/-- Where the address of a copy made by the caller is found. -/
def copyAddress : Place → Operand
  | .general register => .full register
  | .vector register _ => .full register
  | .stack offset => .memory .rbp (incomingDisplacement offset)

/-- Moves a parameter from where the plan puts it into its home slot. -/
def saveParameter (lowering : Lowering) (parameter : ValueId) (plan : ArgumentPlan) :
    Except Failure (List Line) := do
  let displacement ← lowering.slot parameter
  let size ← lowering.sizeOf parameter
  match plan.copy, plan.place with
  | some _, place =>
    return .mov .quad (copyAddress place) (.full .r11) ::
      copyMemory .r11 0 .rbp displacement size
  | none, .general register => lowering.storeRegister register parameter
  | none, .vector register _ =>
    return .mov .quad (.full register) (.full .rax) ::
      (← lowering.storeRegister .rax parameter)
  | none, .stack offset =>
    return copyMemory .rbp (incomingDisplacement offset) .rbp displacement size

/-- Moves all parameters into their home slots. -/
def saveParameters (lowering : Lowering) : Except Failure (List Line) := do
  let placed := (lowering.subject.parametersOf lowering.function).zip lowering.plan.arguments
  let parts ← placed.mapM fun (parameter, plan) => lowering.saveParameter parameter plan
  return parts.flatten

/-- Puts a result where the plan wants it. -/
def returnValue (lowering : Lowering) (value : ValueId) : Except Failure (List Line) := do
  match lowering.plan.result with
  | some .integer => lowering.loadInt value .rax false
  | some .vector =>
    return (← lowering.loadInt value .rax false) ++ [.mov .quad (.full .rax) (.full (.xmm 0))]
  | some .memory =>
    let size ← lowering.sizeOf value
    return (← lowering.copyTo value resultPointer 0 size) ++
      [.mov .quad (.full resultPointer) (.full .rax)]
  | none => return []

/-- The code of a return. -/
def ret (lowering : Lowering) (instruction : ValueId) : Except Failure (List Line) := do
  match lowering.subject.operand? instruction 0 with
  | some value => return (← lowering.returnValue value) ++ epilogue
  | none => return epilogue

/-! ### Blocks -/

/-- The code of an instruction of a block, where `next` is the number of the next label, and the
number of the next label after it. -/
def instruction (lowering : Lowering) (next : Nat) (block id : ValueId) :
    Except Failure (List Line × Nat) := do
  match lowering.subject.opcode? id with
  | some (.alloc _) => return (← lowering.alloc id, next)
  | some .load => return (← lowering.load id, next)
  | some .store => return (← lowering.store id, next)
  | some (.binary operation) => return (← lowering.binary id operation, next)
  | some (.compare predicate) => return (← lowering.compare id predicate, next)
  | some (.convert conversion target) => return (← lowering.convert id conversion target, next)
  | some .gep => return (← lowering.gep id, next)
  | some .call => return (← lowering.call id, next)
  | some .br => return (← lowering.branch block id, next)
  | some .condbr => lowering.branchIf next block id
  | some .ret => return (← lowering.ret id, next)
  | some .unreachable => return ([.trap], next)
  | some (.phi _) | none => return ([], next)

/-- The code of instructions of a block, one after the other. -/
def instructions (lowering : Lowering) (next : Nat) (block : ValueId) :
    List ValueId → Except Failure (List Line × Nat)
  | [] => .ok ([], next)
  | id :: ids => do
    let (lines, after) ← lowering.instruction next block id
    let (others, last) ← lowering.instructions after block ids
    return (comment lowering.options.comments (lowering.printer.line id) ++ lines ++ others, last)

/-- The code of blocks, one after the other, each behind its label. -/
def blocks (lowering : Lowering) (next : Nat) :
    List ValueId → Except Failure (List Line × Nat)
  | [] => .ok ([], next)
  | block :: others => do
    let (lines, after) ←
      lowering.instructions next block (lowering.subject.instructionsOf block)
    let (rest, last) ← lowering.blocks after others
    return (.label (lowering.label block) :: lines ++ rest, last)

/-! ### Functions -/

/-- What the code of a function is made from, where `next` is the number of the next label, and the
number of the next label after the labels of its blocks. -/
def of (printer : Printer) (options : Options) (symbols : Symbols) (next : Nat)
    (function : ValueId) : Except Failure (Lowering × Nat) := do
  let m := printer.subject
  let signature := ((m.function? function).map Function.signature).getD ⟨[], .void, false⟩
  let plan ← (options.platform.convention.plan signature.parameters signature.result).mapError .abi
  let frame ← Frame.of m function
  let blocks := m.blocksOf function
  let labels := blocks.zipIdx.map fun (block, index) =>
    (block, options.platform.label (next + index))
  return (⟨printer, options, symbols, function, frame, plan, labels⟩, next + blocks.length)

/-- The directives in front of a function, and its label. -/
def header (lowering : Lowering) : List Line :=
  let symbol := lowering.symbols.symbol lowering.function
  comment lowering.options.comments (lowering.printer.signatureLine lowering.function) ++
    [.globl symbol, .alignCode 16] ++
    (if lowering.options.platform.isElf then [.functionType symbol] else []) ++ [.label symbol]

/-- The code of the function, where `next` is the number of the next label, and the number of the
next label after it. -/
def lines (lowering : Lowering) (next : Nat) : Except Failure (List Line × Nat) := do
  let parameters ← lowering.saveParameters
  let (body, last) ← lowering.blocks next (lowering.subject.blocksOf lowering.function)
  return (lowering.header ++ lowering.prologue ++ parameters ++ body, last)

end Lowering

end SsaAmd64
