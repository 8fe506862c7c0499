/-
**The textual form.**

Values, instructions, functions and whole modules as text for reading, with resolved names. Nothing
in the module changes by being printed.

* `Printer.identifier`, `Printer.valueText`: a value where it is used;
* `Printer.body`, `Printer.line`: an instruction;
* `Printer.blockText`, `functionText`, `moduleText`: the text of larger parts;
* `Printer.functionTrace`, `blockTrace`, `instructionTrace`, `globalTrace`: where something stands,
  for error reports.
-/

import SsaAmd64.Ir.Naming
import SsaAmd64.Ty.Text

namespace SsaAmd64

/-- A module together with the resolved names of its values. -/
structure Printer where
  subject : Module
  names : NameTable

namespace Printer

def of (m : Module) : Printer := ⟨m, NameTable.of m⟩

/-- The column at which the comment of a block starts at the earliest. -/
def commentColumn : Nat := 40

/-- What stands for an empty slot. -/
def emptySlot : String := "<null>"

/-- The name of a value: the resolved one, or the stored one where none is resolved. -/
def name (printer : Printer) (id : ValueId) : String :=
  (printer.names.get? id).getD (printer.subject.storedName id)

/-- A value as an operand without its type: `@global`, `%local`, or the literal itself. -/
def identifier (printer : Printer) (id : ValueId) : String :=
  match printer.subject.content? id with
  | some (.global _) | some (.function _) => "@" ++ printer.name id
  | some (.literal literal) => literal.text
  | _ => "%" ++ printer.name id

/-- A value as an operand, with its type. -/
def valueText (printer : Printer) (id : ValueId) : String :=
  (printer.subject.typeOf id).text ++ " " ++ printer.identifier id

def slotText (printer : Printer) : Slot → String
  | some id => printer.valueText id
  | none => emptySlot

/-- A slot without the type of its value. -/
def slotIdentifier (printer : Printer) : Slot → String
  | some id => printer.identifier id
  | none => emptySlot

def slotsText (printer : Printer) (slots : List Slot) : String :=
  ", ".intercalate (slots.map printer.slotText)

/-- An incoming pair of a phi. -/
def pairText (printer : Printer) : Slot × Slot → String
  | (value, block) =>
    "[ " ++ printer.slotIdentifier value ++ ", " ++ printer.slotIdentifier block ++ " ]"

/-- An instruction without the name of its result. -/
def bodyOf (printer : Printer) (id : ValueId) (instruction : Instruction) : String :=
  let operand (slot : Nat) : String := printer.slotText (instruction.operand slot)
  match instruction.opcode with
  | .alloc storage => "alloc " ++ storage.text
  | .load => "load " ++ operand 0
  | .store => "store " ++ operand 0 ++ ", " ++ operand 1
  | .binary operation => operation.name ++ " " ++ operand 0 ++ ", " ++ operand 1
  | .compare predicate => "icmp " ++ predicate.name ++ " " ++ operand 0 ++ ", " ++ operand 1
  | .convert conversion target => conversion.name ++ " " ++ operand 0 ++ " to " ++ target.text
  | .gep => "gep " ++ operand 0 ++ ", " ++ printer.slotsText instruction.trailing
  | .call =>
    "call " ++ (printer.subject.typeOf id).text ++ " " ++
      printer.slotIdentifier (instruction.operand 0) ++ "(" ++
      printer.slotsText instruction.trailing ++ ")"
  | .br => "br " ++ operand 0
  | .condbr => "condbr " ++ operand 0 ++ ", " ++ operand 1 ++ ", " ++ operand 2
  | .ret =>
    match instruction.operand 0 with
    | some value => "ret " ++ printer.valueText value
    | none => "ret"
  | .phi type =>
    "phi " ++ type.text ++ " " ++ ", ".intercalate (instruction.incoming.map printer.pairText)
  | .unreachable => "unreachable"

def body (printer : Printer) (id : ValueId) : String :=
  match printer.subject.instruction? id with
  | some instruction => printer.bodyOf id instruction
  | none => ""

/-- The decimal values of the float literals among the operands of an instruction. -/
def floatsText (printer : Printer) (id : ValueId) : String :=
  let literals := ((printer.subject.operandsOf id).filterMap fun slot => slot).filterMap
    printer.subject.literal?
  match literals.filterMap Literal.datum? with
  | [] => ""
  | floats =>
    "     ; Float literals:" ++ String.join (floats.map fun datum => " " ++ datum.sixPlaces)

/-- An instruction with the name of its result, if it has one, and a comment on its float
literals. -/
def line (printer : Printer) (id : ValueId) : String :=
  (if printer.subject.producesValue id then "%" ++ printer.name id ++ " = " else "") ++
    printer.body id ++ printer.floatsText id

/-- The parameters of a function, followed by dots if it is variadic. -/
def parametersText (printer : Printer) (variadic : Bool) (parameters : List ValueId) : String :=
  ", ".intercalate (parameters.map printer.valueText ++ if variadic then ["..."] else [])

/-- The first line of a function. -/
def signatureLine (printer : Printer) (id : ValueId) : String :=
  match printer.subject.function? id with
  | some function =>
    "func " ++ function.signature.result.text ++ " @" ++ printer.name id ++ "(" ++
      printer.parametersText function.signature.variadic function.parameters ++ ")"
  | none => ""

def initialiserText (printer : Printer) : Initialiser → String
  | .literal value => "literal " ++ printer.valueText value
  | .global value => "global " ++ printer.valueText value
  | .zero => "zero"

def globalLine (printer : Printer) (id : ValueId) : String :=
  match printer.subject.global? id with
  | some global =>
    "glob " ++ printer.valueText id ++ " = " ++ printer.initialiserText global.initialiser
  | none => ""

/-- A block: its name, its predecessors as a comment, and its instructions. -/
def blockText (printer : Printer) (id : ValueId) : String :=
  let name := printer.name id
  let predecessors := (printer.subject.predecessors id).map printer.name
  let padding := String.ofList (List.replicate (commentColumn - (name.length + 2)) ' ')
  name ++ ":" ++ padding ++ "; preds = " ++ ", ".intercalate predecessors ++ "\n" ++
    String.join ((printer.subject.instructionsOf id).map fun instruction =>
      "    " ++ printer.line instruction ++ "\n")

/-- A function: its first line and, unless it is a prototype, its blocks with blank lines between
them. -/
def functionText (printer : Printer) (id : ValueId) : String :=
  printer.signatureLine id ++
    (match printer.subject.blocksOf id with
      | [] => ""
      | blocks => " \x7b\n" ++ "\n".intercalate (blocks.map printer.blockText) ++ "\x7d") ++ "\n"

/-- A module: its name, its globals and its functions. -/
def moduleText (printer : Printer) : String :=
  "; Module '" ++ printer.subject.name ++ "'\n" ++
    String.join (printer.subject.globals.map fun global => printer.globalLine global ++ "\n") ++
    String.join (printer.subject.functions.map fun function =>
      "\n" ++ printer.functionText function)

/-! ### Traces -/

/-- Where a function stands. -/
def functionTrace (printer : Printer) (id : ValueId) : String :=
  printer.signatureLine id

/-- The name of the function that a block belongs to. -/
def functionNameOf (printer : Printer) (block : ValueId) : String :=
  match printer.subject.block? block with
  | some held => printer.name held.function
  | none => ""

/-- Where a block stands. -/
def blockTrace (printer : Printer) (id : ValueId) : String :=
  "`" ++ printer.name id ++ "` ; func @" ++ printer.functionNameOf id

/-- Where an instruction stands. -/
def instructionTrace (printer : Printer) (id : ValueId) : String :=
  "`" ++ printer.body id ++ "` ; " ++
    match printer.subject.blockOf? id with
    | some block =>
      "instr index " ++ toString ((printer.subject.position? block id).getD 0) ++ ", block %" ++
        printer.name block ++ ", func @" ++ printer.functionNameOf block
    | none => "detached"

/-- Where a global stands. -/
def globalTrace (printer : Printer) (id : ValueId) : String :=
  "`" ++ printer.globalLine id ++ "`"

end Printer

/-- The textual form of a module. -/
def Module.text (m : Module) : String :=
  (Printer.of m).moduleText

end SsaAmd64
