/-
**The same names make the same texts.**

What a printer writes is read off the names that it gives and off everything else of its module.
Two printers whose modules differ in the stored names of values only, and which give every value the
same name, write the same.

* `Printer.Alike`: printers with the same names;
* `Printer.Alike.line`, `Printer.Alike.moduleText` and the like: what they write;
* `Printer.Alike.valueReport`: the value report.
-/

import SsaAmd64.Ir.Report
import SsaAmd64.Proofs.Ir.Renaming

namespace SsaAmd64

namespace Printer

/-- **Two printers that give every value the same name**, and differ in the stored names of values
at most. -/
structure Alike (printer other : Printer) : Prop where
  renamed : printer.subject.Renamed other.subject
  title : other.subject.name = printer.subject.name
  name : other.name = printer.name

namespace Alike

variable {printer other : Printer} (alike : printer.Alike other)
include alike

/-! ### Values -/

theorem identifier : other.identifier = printer.identifier := by
  unfold Printer.identifier
  rw [alike.renamed.content?, alike.name]

theorem valueText : other.valueText = printer.valueText := by
  unfold Printer.valueText
  rw [alike.renamed.typeOf, alike.identifier]

theorem slotText : other.slotText = printer.slotText := by
  funext slot
  rw [Printer.slotText.eq_def, Printer.slotText.eq_def, alike.valueText]

theorem slotIdentifier : other.slotIdentifier = printer.slotIdentifier := by
  funext slot
  rw [Printer.slotIdentifier.eq_def, Printer.slotIdentifier.eq_def, alike.identifier]

theorem slotsText : other.slotsText = printer.slotsText := by
  unfold Printer.slotsText
  rw [alike.slotText]

theorem pairText : other.pairText = printer.pairText := by
  unfold Printer.pairText
  rw [alike.slotIdentifier]

/-! ### Instructions -/

theorem bodyOf : other.bodyOf = printer.bodyOf := by
  unfold Printer.bodyOf
  rw [alike.slotText, alike.slotsText, alike.slotIdentifier, alike.valueText, alike.pairText,
    alike.renamed.typeOf]

theorem body : other.body = printer.body := by
  unfold Printer.body
  rw [alike.renamed.instruction?, alike.bodyOf]

theorem floatsText : other.floatsText = printer.floatsText := by
  unfold Printer.floatsText
  rw [alike.renamed.operandsOf, alike.renamed.literal?]

theorem line : other.line = printer.line := by
  unfold Printer.line
  rw [alike.renamed.producesValue, alike.name, alike.body, alike.floatsText]

/-! ### Larger parts -/

theorem parametersText : other.parametersText = printer.parametersText := by
  unfold Printer.parametersText
  rw [alike.valueText]

theorem signatureLine : other.signatureLine = printer.signatureLine := by
  unfold Printer.signatureLine
  rw [alike.renamed.function?, alike.name, alike.parametersText]

theorem initialiserText : other.initialiserText = printer.initialiserText := by
  funext initialiser
  rw [Printer.initialiserText.eq_def, Printer.initialiserText.eq_def, alike.valueText]

theorem globalLine : other.globalLine = printer.globalLine := by
  unfold Printer.globalLine
  rw [alike.renamed.global?, alike.valueText, alike.initialiserText]

theorem blockText : other.blockText = printer.blockText := by
  unfold Printer.blockText
  rw [alike.name, alike.renamed.predecessors, alike.renamed.instructionsOf, alike.line]

theorem functionText : other.functionText = printer.functionText := by
  unfold Printer.functionText
  rw [alike.signatureLine, alike.renamed.blocksOf, alike.blockText]

theorem moduleText : other.moduleText = printer.moduleText := by
  unfold Printer.moduleText
  rw [alike.title, alike.renamed.globals, alike.renamed.functions, alike.globalLine,
    alike.functionText]

/-! ### Traces -/

theorem functionTrace : other.functionTrace = printer.functionTrace := by
  unfold Printer.functionTrace
  rw [alike.signatureLine]

theorem functionNameOf : other.functionNameOf = printer.functionNameOf := by
  unfold Printer.functionNameOf
  rw [alike.renamed.block?, alike.name]

theorem blockTrace : other.blockTrace = printer.blockTrace := by
  unfold Printer.blockTrace
  rw [alike.name, alike.functionNameOf]

theorem instructionTrace : other.instructionTrace = printer.instructionTrace := by
  unfold Printer.instructionTrace
  rw [alike.body, alike.renamed.blockOf?, alike.renamed.position?, alike.name,
    alike.functionNameOf]

theorem globalTrace : other.globalTrace = printer.globalTrace := by
  unfold Printer.globalTrace
  rw [alike.globalLine]

/-! ### The value report -/

theorem usesLine : other.usesLine = printer.usesLine := by
  unfold Printer.usesLine
  rw [alike.valueText, alike.renamed.uses]

theorem functionReport : other.functionReport = printer.functionReport := by
  unfold Printer.functionReport
  rw [alike.usesLine, alike.renamed.bodyOf, alike.renamed.producesValue, alike.renamed.blocksOf,
    alike.renamed.parametersOf]

theorem valueReport : other.valueReport = printer.valueReport := by
  unfold Printer.valueReport
  rw [alike.title, alike.renamed.globals, alike.renamed.functions, alike.usesLine,
    alike.functionReport]

end Alike

end Printer

end SsaAmd64
