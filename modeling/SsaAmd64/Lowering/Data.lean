/-
**The data section.**

Every global becomes a label in the data section, aligned to its storage and followed by directives
for its initial bytes.
-/

import SsaAmd64.Asm.Line
import SsaAmd64.Lowering.Symbols

namespace SsaAmd64

namespace Lowering

open Asm

/-- A comment, if comments are written. -/
def comment (comments : Bool) (text : String) : List Line :=
  if comments then [.comment text] else []

/-- The directives of a literal in storage of a size: one scalar if there is one of this size, and
single bytes otherwise. -/
def literalData (literal : Literal) (size : Nat) : Line :=
  match literal with
  | .bytes content => .ascii content
  | _ =>
    match Width.ofBytes? size with
    | some width => .data width (Bytes.toNat (literal.image size))
    | none => .bytes (literal.image size)

/-- The directives for the initial bytes of a global whose storage has a size. -/
def initialData (m : Module) (symbols : Symbols) (id : ValueId) (size : Nat) :
    Initialiser → Except Failure (List Line)
  | .zero => .ok (if 0 < size then [.zero size] else [])
  | .global other =>
    if size = 8 then .ok [.address (symbols.symbol other)]
    else unsupported (.addressStorage size id)
  | .literal value => do
    let literalSize ← (m.typeOf value).sizeInCode
    match m.literal? value with
    | some literal =>
      if literalSize = size then return [literalData literal size]
      else unsupported (.initialiserSize literalSize size id)
    | none => unsupported (.initialiserSize literalSize size id)

/-- The lines of one global. -/
def globalData (printer : Printer) (symbols : Symbols) (comments : Bool) (id : ValueId) :
    Except Failure (List Line) := do
  match printer.subject.global? id with
  | none => return []
  | some global =>
    let extent ← global.storage.extentInCode
    let symbol := symbols.symbol id
    let content ← initialData printer.subject symbols id extent.size global.initialiser
    return comment comments (printer.globalLine id) ++
      (if symbols.isLocal id then [] else [.globl symbol]) ++
      [.align extent.align, .label symbol] ++ content

/-- The data section; without globals there is none. -/
def dataSection (printer : Printer) (symbols : Symbols) (comments : Bool) :
    Except Failure (List Line) := do
  match printer.subject.globals with
  | [] => return []
  | globals =>
    let parts ← globals.mapM (globalData printer symbols comments)
    return .directive ".data" :: parts.flatten

end Lowering

end SsaAmd64
