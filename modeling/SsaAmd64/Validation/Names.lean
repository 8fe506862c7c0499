/-
**Names and initial values.**

Function names are given and distinct. Global names may be missing or repeated, since display names
are numbered, but a resolved global name must not be that of a function. The storage of a global has
the type of what it starts out as.
-/

import SsaAmd64.Validation.Fault

namespace SsaAmd64

namespace Module

/-- Checks the names of the functions that remain, where `seen` holds the names before them. -/
def checkFunctionNamesFrom (m : Module) (seen : List String) : List ValueId → Except Finding Unit
  | [] => .ok ()
  | function :: functions =>
    let name := m.storedName function
    if name.isEmpty then .error ⟨.function function, .emptyFunctionName⟩
    else if seen.contains name then .error ⟨.function function, .duplicateFunctionName name⟩
    else m.checkFunctionNamesFrom (name :: seen) functions

def checkFunctionNames (m : Module) : Except Finding Unit :=
  m.checkFunctionNamesFrom [] m.functions

def checkGlobalNames (m : Module) : Except Finding Unit :=
  let printer := Printer.of m
  let taken := m.functions.map m.storedName
  m.globals.forM fun global =>
    let name := printer.name global
    if taken.contains name then .error ⟨.global global, .globalNamedAsFunction name⟩ else .ok ()

/-- What is wrong with the way a global starts out. -/
def initialFault? (m : Module) (id : ValueId) (global : Global) : Option Fault :=
  let against (value : ValueId) : Option Fault :=
    let implied := Ty.pointer (m.typeOf value)
    if m.typeOf id = implied then none else some (.mismatch (m.typeOf id) implied)
  match global.initialiser with
  | .literal value =>
    if (m.literal? value).isSome then against value else some .initialiserNotLiteral
  | .global value => against value
  | .zero => none

def checkGlobals (m : Module) : Except Finding Unit :=
  m.globals.forM fun id =>
    match (m.global? id).bind (m.initialFault? id) with
    | some fault => .error ⟨.global id, fault⟩
    | none => .ok ()

end Module

end SsaAmd64
