/-
**Storing the resolved names changes nothing that can be seen.**

A module that was built and the same module with its resolved names stored give every value the same
name. So they print alike, are found valid alike and are compiled alike.

* `Module.Indistinguishable`: modules that cannot be told apart by what is written of them;
* `Module.Built.resolveNames_neutral`: storing the resolved names, once or twice.
-/

import SsaAmd64.Proofs.Ir.Names
import SsaAmd64.Proofs.Lowering.Renaming

namespace SsaAmd64

namespace Module

variable {m next : Module}

/-- **Two modules that cannot be told apart**: every text of them is the same, and they are validated
and compiled alike. Findings and failures are equal, and so are their reports. -/
structure Indistinguishable (m next : Module) : Prop where
  text : next.text = m.text
  name : ∀ id, (Printer.of next).name id = (Printer.of m).name id
  identifier : ∀ id, (Printer.of next).identifier id = (Printer.of m).identifier id
  valueText : ∀ id, (Printer.of next).valueText id = (Printer.of m).valueText id
  body : ∀ id, (Printer.of next).body id = (Printer.of m).body id
  line : ∀ id, (Printer.of next).line id = (Printer.of m).line id
  signatureLine : ∀ id, (Printer.of next).signatureLine id = (Printer.of m).signatureLine id
  globalLine : ∀ id, (Printer.of next).globalLine id = (Printer.of m).globalLine id
  blockText : ∀ id, (Printer.of next).blockText id = (Printer.of m).blockText id
  functionText : ∀ id, (Printer.of next).functionText id = (Printer.of m).functionText id
  functionTrace : ∀ id, (Printer.of next).functionTrace id = (Printer.of m).functionTrace id
  blockTrace : ∀ id, (Printer.of next).blockTrace id = (Printer.of m).blockTrace id
  instructionTrace : ∀ id, (Printer.of next).instructionTrace id = (Printer.of m).instructionTrace id
  globalTrace : ∀ id, (Printer.of next).globalTrace id = (Printer.of m).globalTrace id
  valueReport : (Printer.of next).valueReport = (Printer.of m).valueReport
  validate : next.validate = m.validate
  findingMessage : ∀ finding : Finding,
    finding.message (Printer.of next) = finding.message (Printer.of m)
  findingTrace : ∀ finding : Finding, finding.trace (Printer.of next) = finding.trace (Printer.of m)
  findingText : ∀ finding : Finding, finding.text (Printer.of next) = finding.text (Printer.of m)
  compile : ∀ options, next.compile options = m.compile options
  failureMessage : ∀ failure : Failure,
    failure.message (Printer.of next) = failure.message (Printer.of m)

/-- Modules whose values go by the same names, where functions are called alike. -/
theorem indistinguishable_of_alike (alike : (Printer.of m).Alike (Printer.of next))
    (stored : ∀ function ∈ m.functions, next.storedName function = m.storedName function) :
    Indistinguishable m next := by
  have validate := alike.renamed.validate (fun global _ => congrFun alike.name global) stored
  exact {
    text := alike.moduleText
    name := congrFun alike.name
    identifier := congrFun alike.identifier
    valueText := congrFun alike.valueText
    body := congrFun alike.body
    line := congrFun alike.line
    signatureLine := congrFun alike.signatureLine
    globalLine := congrFun alike.globalLine
    blockText := congrFun alike.blockText
    functionText := congrFun alike.functionText
    functionTrace := congrFun alike.functionTrace
    blockTrace := congrFun alike.blockTrace
    instructionTrace := congrFun alike.instructionTrace
    globalTrace := congrFun alike.globalTrace
    valueReport := alike.valueReport
    validate
    findingMessage := alike.findingMessage
    findingTrace := alike.findingTrace
    findingText := alike.findingText
    compile := fun options => by
      rw [compile, compile, assemble_alike alike]
      exact congrArg (fun outcome => (Except.mapError Failure.invalid outcome).bind _) validate
    failureMessage := alike.failureMessage }

/-- The printers of a module without and with its resolved names. -/
theorem Built.alike_resolveNames (built : Built m) :
    (Printer.of m).Alike (Printer.of m.resolveNames) := by
  refine ⟨.resolveNames m, ?_, built.name_resolveNames⟩
  exact @foldl_preserves _ (fun next => next.name = m.name) storeName (fun _ _ start => start)
    (NameTable.of m).names m rfl

/-- Functions keep the names that they are given. -/
theorem Built.storedName_function (built : Built m) {function : ValueId}
    (member : function ∈ m.functions) :
    m.resolveNames.storedName function = m.storedName function :=
  built.storedName_of_mem_names (mem_names_of_function member)

/-- **Storing the resolved names is neutral, and doing it again changes nothing.** -/
theorem Built.resolveNames_neutral (built : Built m) :
    Indistinguishable m m.resolveNames ∧ m.resolveNames.resolveNames = m.resolveNames :=
  ⟨indistinguishable_of_alike built.alike_resolveNames fun _ => built.storedName_function,
    built.resolveNames_resolveNames⟩

/-- A global called like a number, two globals without names, and parameters that share a name with
a block. -/
def namesakesSteps : List Operation :=
  [.addGlobal (.int 8) .zero "1", .addGlobal (.int 8) .zero "", .addGlobal (.int 8) .zero "",
    .addFunction ⟨[.int 8, .int 8], .void, false⟩ "f", .rename ⟨4⟩ "x", .rename ⟨5⟩ "x1",
    .addBlock ⟨3⟩ .finish "x", .insert ⟨some (.finish ⟨6⟩)⟩ (.ret none) ""]

def namesakes : Module := builtBy "namesakes" namesakesSteps

/-- The names of some values change where they are stored, and nowhere else. -/
theorem resolveNames_neutral_namesakes :
    namesakes.ids.map namesakes.storedName = ["1", "", "", "f", "x", "x1", "x", ""] ∧
      namesakes.ids.map namesakes.resolveNames.storedName =
        ["1", "2", "3", "f", "x", "x1", "x2", ""] ∧
      Indistinguishable namesakes namesakes.resolveNames ∧
      namesakes.resolveNames.resolveNames = namesakes.resolveNames :=
  ⟨by decide +kernel, by decide +kernel,
    Built.resolveNames_neutral (built_builtBy "namesakes" namesakesSteps)⟩

end Module

end SsaAmd64
