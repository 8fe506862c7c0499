/-
**Lists of passes.**

A pass turns a module into another. A list of passes validates the module, runs each pass in order
and validates after every one, so that a broken module is blamed on the pass that made it.

* `PassList.run`: the module as the last pass left it, and what stopped the list, if anything did.
-/

import SsaAmd64.Validation.Module

namespace SsaAmd64

structure Pass where
  name : String
  run : Module → Module

abbrev PassList := List Pass

/-- What stops a list of passes. -/
inductive PassFailure where
  | invalidInput (finding : Finding)
  | invalidOutput (pass : String) (finding : Finding)
deriving DecidableEq

namespace PassFailure

def finding : PassFailure → Finding
  | invalidInput finding => finding
  | invalidOutput _ finding => finding

/-- The report of a failure, rendered from the module in which it was found. -/
def message (printer : Printer) : PassFailure → String
  | invalidInput finding =>
    "Module is invalid before running passes: " ++ finding.text printer
  | invalidOutput pass finding =>
    "Pass `" ++ pass ++ "` caused validation error: " ++ finding.text printer

end PassFailure

namespace PassList

/-- The names of the passes, in order. -/
def text (passes : PassList) : String :=
  "PassList: \x7b" ++ ", ".intercalate (passes.map Pass.name) ++ "\x7d"

/-- Runs passes on a module that has been validated. -/
def runOn (m : Module) : PassList → Module × Except PassFailure Unit
  | [] => (m, .ok ())
  | pass :: passes =>
    let changed := pass.run m
    match changed.validate with
    | .ok () => runOn changed passes
    | .error finding => (changed, .error (.invalidOutput pass.name finding))

/-- Validates a module and runs passes on it. -/
def run (passes : PassList) (m : Module) : Module × Except PassFailure Unit :=
  match m.validate with
  | .ok () => runOn m passes
  | .error finding => (m, .error (.invalidInput finding))

end PassList

namespace Pass

/-- A pass that changes nothing. -/
def nothing (name : String) : Pass := ⟨name, id⟩

/-- Stores the resolved names. -/
def resolveNames (name : String) : Pass := ⟨name, Module.resolveNames⟩

/-- Takes the names off all functions. -/
def unnameFunctions (name : String) : Pass :=
  ⟨name, fun m => m.functions.foldl (fun m function => m.rename function "") m⟩

/-- Removes a terminator from the end of a block, unless it is in use. -/
def dropTerminator (m : Module) (block : ValueId) : Module :=
  match (m.instructionsOf block).getLast? with
  | some last =>
    if m.hasOpcode Opcode.isTerminator last then (m.remove last none).toOption.getD m else m
  | none => m

/-- Removes the terminators from the ends of all blocks. -/
def dropTerminators (name : String) : Pass :=
  ⟨name, fun m => m.allBlocks.foldl dropTerminator m⟩

end Pass

end SsaAmd64
