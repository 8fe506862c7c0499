/-
**Running a command.**

What the commands do to their surroundings, and the exit code of a command line: 0 for success, 1
for a failure while running, 2 for a command line that is rejected.

* `Command.run`: a command in any surroundings;
* `CommandLine.run`: a whole command line.
-/

import SsaAmd64.CommandLine.Arguments
import SsaAmd64.CommandLine.Path
import SsaAmd64.Flow.Diagram
import SsaAmd64.Ir.Report
import SsaAmd64.Ir.Sample
import SsaAmd64.Lowering.Module
import SsaAmd64.Options.Json
import SsaAmd64.Validation.Pass

namespace SsaAmd64

/-- What a command can do outside the program. -/
structure Surroundings (m : Type → Type) where
  print : String → m Unit
  /-- Tells the user what went wrong. -/
  complain : String → m Unit
  /-- The text of a file, if it can be read. -/
  read : (path : String) → m (Option String)
  /-- Makes a directory in one that is there, and tells whether the path names a directory now. -/
  makeDirectory : (path : String) → m Bool
  /-- Writes a file, and tells whether it could be written. -/
  write : (path content : String) → m Bool

/-- Why a command fails while it runs. -/
inductive RunError where
  | passes (subject : Module) (failure : PassFailure)
  | validation (subject : Module) (finding : Finding)
  | code (subject : Module) (failure : Failure)
  | unreadable (path : String)
  | noOptions (path : String)
  | noDirectory (path : String)
  | unwritable (path : String)

def RunError.message : RunError → String
  | passes subject failure => failure.message (.of subject)
  | validation subject finding =>
    "module '" ++ subject.name ++ "' is invalid: " ++ finding.text (.of subject)
  | code subject failure => failure.message (.of subject)
  | unreadable path => "cannot read " ++ path
  | noOptions path => "invalid options in " ++ path
  | noDirectory path => "cannot create " ++ path
  | unwritable path => "cannot write " ++ path

namespace DemoRequest

/-- Settings given on the command line override others. -/
def override (request : DemoRequest) (options : Options) : Options where
  platform := request.platform.getD options.platform
  comments := options.comments && !request.noComments

end DemoRequest

section Running

variable {m : Type → Type} [Monad m]

/-- Runs that may fail. -/
abbrev Running (m : Type → Type) := ExceptT RunError m

namespace Surroundings

/-- Writes a file or fails. -/
def writeOrFail (surroundings : Surroundings m) (path content : String) : Running m Unit := do
  if ← surroundings.write path content then return else throw (.unwritable path)

/-- Makes a directory and those around it, and tells whether it is there now. -/
def makeDirectories (surroundings : Surroundings m) (path : String) : m Bool :=
  (Path.steps path).allM surroundings.makeDirectory

/-- Writes the two diagrams of each function that has a body into a directory. -/
def writeDiagrams (surroundings : Surroundings m) (printer : Printer) (directory : String)
    (format : DiagramFormat) : Running m Unit := do
  if !(← surroundings.makeDirectories directory) then throw (.noDirectory directory)
  for function in printer.subject.functions do
    if !(printer.subject.blocksOf function).isEmpty then
      let cfg := Cfg.of printer.subject function
      for diagram in [Diagram.ofCfg printer cfg,
          Diagram.ofDominatorTree printer function cfg.dominatorTree] do
        let text := match format with
          | .dot => diagram.dot
          | .json => diagram.json
        surroundings.writeOrFail
          (Path.join directory (diagram.name ++ "." ++ format.name)) text

/-- The settings in a file. -/
def readOptions (surroundings : Surroundings m) (path : String) : Running m Options := do
  match ← surroundings.read path with
  | none => throw (.unreadable path)
  | some text =>
    match Options.ofText? text with
    | some options => return options
    | none => throw (.noOptions path)

/-- Writes out the sample program in the forms that are asked for. What is printed first stays
printed where a later step fails. -/
def demo (surroundings : Surroundings m) (request : DemoRequest) : Running m Unit := do
  let passes : PassList := []
  let (subject, outcome) := passes.run Sample.demo
  if let .error failure := outcome then throw (.passes subject failure)
  let printer := Printer.of subject
  if request.printText then surroundings.print (printer.moduleText ++ "\n")
  if request.printValues then surroundings.print printer.valueReport
  if let some directory := request.diagrams then
    surroundings.writeDiagrams printer directory request.format
  let options ← match request.config with
    | some path => surroundings.readOptions path
    | none => pure Options.default
  match subject.compile (request.override options) with
  | .error failure => throw (.code subject failure)
  | .ok lines =>
    match request.output with
    | some path =>
      surroundings.writeOrFail path (Asm.render lines)
      surroundings.print ("Assembly written to: " ++ path ++ "\n")
    | none => surroundings.print (Asm.render lines)

/-- Validates the sample program. -/
def check (surroundings : Surroundings m) : Running m Unit := do
  let subject := Sample.demo
  match subject.validate with
  | .error finding => throw (.validation subject finding)
  | .ok () =>
    let blocks := (subject.functions.flatMap subject.blocksOf).length
    surroundings.print ("Module '" ++ subject.name ++ "' is valid (" ++
      toString subject.functions.length ++ " functions, " ++ toString blocks ++ " blocks, " ++
      toString subject.globals.length ++ " globals)\n")

end Surroundings

/-- Runs a command. -/
def Command.run (surroundings : Surroundings m) : Command → Running m Unit
  | .demo request => surroundings.demo request
  | .check => surroundings.check

namespace CommandLine

/-- The name and version of the program. -/
def version : String := "ssac 0.1.0\n"

def usage : String :=
  "Usage: ssac [-v] demo [OPTIONS]\n       ssac [-v] check\n\n" ++
  "Options of demo:\n" ++
  "      --print-ir               print the program\n" ++
  "      --print-values           print its values with their uses\n" ++
  "      --graphs DIR             write its diagrams into DIR\n" ++
  "      --graph-format FORMAT    dot or json\n" ++
  "      --config FILE            read settings from FILE\n" ++
  "      --platform PLATFORM      linux, macos or windows\n" ++
  "      --no-comments            leave the program out of the assembly\n" ++
  "  -o, --output FILE            write the assembly to FILE\n"

/-- Runs a command line and gives its exit code. -/
def run (surroundings : Surroundings m) (arguments : List String) : m UInt32 := do
  match Command.ofArguments arguments with
  | .error .help =>
    surroundings.print usage
    return 0
  | .error .version =>
    surroundings.print version
    return 0
  | .error .rejected =>
    surroundings.complain usage
    return 2
  | .ok command =>
    match ← (command.run surroundings).run with
    | .ok () => return 0
    | .error error =>
      surroundings.complain ("Error: " ++ error.message ++ "\n")
      return 1

end CommandLine

end Running

end SsaAmd64
