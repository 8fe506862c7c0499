/-
**Symbols and labels.**

Functions and globals go by their resolved names, decorated for the platform. A global whose name an
assembler would not accept, such as a number, gets a label that is private to the assembly. Block
and edge labels come from one counter for the whole module.

* `Symbols.of`: the symbols of a module, all different;
* `Platform.label`: the label with a number.
-/

import SsaAmd64.Lowering.Failure

namespace SsaAmd64

/-- Characters that an identifier may start with. -/
def startsIdentifier (character : Char) : Bool :=
  character.isAlpha || character = '_' || character = '.' || character = '$'

/-- Characters that an identifier may go on with. -/
def continuesIdentifier (character : Char) : Bool :=
  startsIdentifier character || character.isDigit

/-- Whether an assembler accepts a name. -/
def isIdentifier (name : String) : Bool :=
  match name.toList with
  | [] => false
  | first :: others => startsIdentifier first && others.all continuesIdentifier

/-- The label with a number. -/
def Platform.label (platform : Platform) (number : Nat) : String :=
  platform.labelPrefix ++ toString number

/-- Symbols of functions and globals. -/
structure Symbols where
  names : List (ValueId × String)
  /-- Globals whose symbol is private to the assembly. -/
  locals : List ValueId

namespace Symbols

def empty : Symbols := ⟨[], []⟩

/-- The symbol of a function or global. -/
def symbol (symbols : Symbols) (id : ValueId) : String :=
  (symbols.names.lookup id).getD ""

def isLocal (symbols : Symbols) (id : ValueId) : Bool :=
  symbols.locals.contains id

/-- The value that a symbol stands for. -/
def owner? (symbols : Symbols) (symbol : String) : Option ValueId :=
  (symbols.names.find? fun entry => entry.2 == symbol).map Prod.fst

/-- Gives a symbol to a value, unless another has it. -/
def claim (symbols : Symbols) (id : ValueId) (symbol : String) : Except Failure Symbols :=
  match symbols.owner? symbol with
  | some other => unsupported (.duplicateSymbol symbol other id)
  | none => .ok { symbols with names := symbols.names ++ [(id, symbol)] }

/-- Gives symbols to functions. -/
def claimFunctions (printer : Printer) (platform : Platform) (symbols : Symbols) :
    List ValueId → Except Failure Symbols
  | [] => .ok symbols
  | function :: functions => do
    let name := printer.name function
    if isIdentifier name then
      let next ← symbols.claim function (platform.symbolPrefix ++ name)
      claimFunctions printer platform next functions
    else unsupported (.functionName function)

/-- Gives symbols to globals, the first of which has the given position in the module. -/
def claimGlobals (printer : Printer) (platform : Platform) (position : Nat) (symbols : Symbols) :
    List ValueId → Except Failure Symbols
  | [] => .ok symbols
  | global :: globals => do
    let name := printer.name global
    if isIdentifier name then
      let next ← symbols.claim global (platform.symbolPrefix ++ name)
      claimGlobals printer platform (position + 1) next globals
    else
      let next ← symbols.claim global (platform.labelPrefix ++ "global" ++ toString position)
      claimGlobals printer platform (position + 1) { next with locals := global :: next.locals }
        globals

/-- The symbols of a module on a platform. -/
def of (printer : Printer) (platform : Platform) : Except Failure Symbols := do
  let functions ← claimFunctions printer platform empty printer.subject.functions
  claimGlobals printer platform 0 functions printer.subject.globals

end Symbols

end SsaAmd64
