/-
**The value report.**

Every global, function, parameter and instruction value of a module, with the number of operand
slots that hold it.
-/

import SsaAmd64.Ir.Printer

namespace SsaAmd64

namespace Printer

/-- A value with the number of its uses, behind an indentation. -/
def usesLine (printer : Printer) (indentation : String) (id : ValueId) : String :=
  indentation ++ printer.valueText id ++ " (references: " ++
    toString (printer.subject.uses id).length ++ ")\n"

/-- A function with its parameters and values; a prototype has only its own line. -/
def functionReport (printer : Printer) (id : ValueId) : String :=
  let values := (printer.subject.bodyOf id).filter printer.subject.producesValue
  let inner (ids : List ValueId) : String := String.join (ids.map (printer.usesLine "      "))
  printer.usesLine "  " id ++
    (if (printer.subject.blocksOf id).isEmpty then ""
      else "    Parameters:\n" ++ inner (printer.subject.parametersOf id) ++
        "    Instruction values:\n" ++ inner values) ++ "\n"

/-- The report on all values of a module. -/
def valueReport (printer : Printer) : String :=
  "Values in module `" ++ printer.subject.name ++ "`\n\nGlobals:\n" ++
    String.join (printer.subject.globals.map (printer.usesLine "  ")) ++ "\nFunctions:\n" ++
    String.join (printer.subject.functions.map printer.functionReport)

end Printer

end SsaAmd64
