/-
**Code of a module.**

The data section, the functions that have a body, and on ELF the mark that the stack is not
executable.

* `Module.assemble`: the code of a module that is taken to be valid;
* `Module.compile`: the code of a module, once it has been validated.
-/

import SsaAmd64.Asm.Text
import SsaAmd64.Lowering.Function
import SsaAmd64.Validation.Module

namespace SsaAmd64

namespace Lowering

open Asm

/-- The code of functions, one after the other, where `next` is the number of the next label. A
prototype has none. -/
def functions (printer : Printer) (options : Options) (symbols : Symbols) (next : Nat) :
    List ValueId → Except Failure (List Line)
  | [] => .ok []
  | function :: others => do
    if (printer.subject.blocksOf function).isEmpty then
      functions printer options symbols next others
    else
      let (lowering, after) ← Lowering.of printer options symbols next function
      let (code, last) ← lowering.lines after
      return code ++ (← functions printer options symbols last others)

/-- The line that ends the code on ELF. -/
def footer (platform : Platform) : List Line :=
  if platform.isElf then [.directive ".section .note.GNU-stack,\"\",@progbits"] else []

end Lowering

namespace Module

/-- The code of a module. -/
def assemble (m : Module) (options : Options) : Except Failure (List Asm.Line) := do
  let printer := Printer.of m
  let symbols ← Symbols.of printer options.platform
  let data ← Lowering.dataSection printer symbols options.comments
  let code ← Lowering.functions printer options symbols 0 m.functions
  return data ++ [.directive ".text"] ++ code ++ Lowering.footer options.platform

/-- The data section of a module alone. -/
def assembleData (m : Module) (options : Options) : Except Failure (List Asm.Line) := do
  let printer := Printer.of m
  let symbols ← Symbols.of printer options.platform
  Lowering.dataSection printer symbols options.comments

/-- Validates a module and gives its code. -/
def compile (m : Module) (options : Options) : Except Failure (List Asm.Line) := do
  m.validate.mapError .invalid
  m.assemble options

end Module

end SsaAmd64
