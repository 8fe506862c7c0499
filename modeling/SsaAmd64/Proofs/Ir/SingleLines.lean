/-
**Lines that are lines.**

A global, an instruction and the head of a function are each printed as one line. They are one line
of text as long as no value has a name with a line feed: types, literals and everything else that is
printed have none.

* `Module.single_name`: names that are printed, from names that are given;
* `Printer.single_line`, `Printer.single_signatureLine`, `Printer.single_globalLine`: the three kinds
  of lines.
-/

import SsaAmd64.Ir.Printer
import SsaAmd64.Proofs.Text.Lines

namespace SsaAmd64

open Text (Single)

/-! ### Names -/

theorem Scope.single_numbered {name : String} (single : Single name) (count : Nat) :
    Single (numbered name count) := by
  rw [numbered]
  split
  · exact single
  · exact Single.append.mpr ⟨single, .repr count⟩

theorem Scope.single_claimAll {m : Module} (single : ∀ id, Single (m.storedName id))
    (scope : Scope) (ids : List ValueId) :
    ∀ entry ∈ claimAll m scope ids, Single entry.2 := by
  induction ids generalizing scope with
  | nil => exact fun _ member => (nomatch member)
  | cons id ids ih =>
    exact List.forall_mem_cons.mpr ⟨single_numbered (single id) _, ih _⟩

/-- **Names are printed without line feeds if they are given without.** -/
theorem Module.single_name {m : Module} (single : ∀ id, Single (m.storedName id)) (id : ValueId) :
    Single ((Printer.of m).name id) := by
  have table : ∀ entry ∈ (NameTable.of m).names, Single entry.2 := by
    intro entry member
    rcases List.mem_append.mp member with global | inner
    · exact Scope.single_claimAll single _ _ entry global
    · obtain ⟨function, _, inside⟩ := List.mem_flatMap.mp inner
      rcases List.mem_cons.mp inside with rfl | inside
      · exact single function
      · exact Scope.single_claimAll single _ _ entry inside
  show Single (((NameTable.of m).names.lookup id).getD (m.storedName id))
  cases found : (NameTable.of m).names.lookup id with
  | none => exact single id
  | some name =>
    obtain ⟨before, after, listed, _⟩ := List.lookup_eq_some_iff.mp found
    have member : (id, name) ∈ before ++ (id, name) :: after :=
      List.mem_append_right _ List.mem_cons_self
    rw [← listed] at member
    exact table _ member

/-! ### Keywords -/

@[simp] theorem BinaryOp.single_name (operation : BinaryOp) : Single operation.name := by
  cases operation <;> decide

@[simp] theorem Predicate.single_name (predicate : Predicate) : Single predicate.name := by
  cases predicate <;> decide

@[simp] theorem Conversion.single_name (conversion : Conversion) : Single conversion.name := by
  cases conversion <;> decide

theorem FloatDatum.single_sixPlaces (datum : FloatDatum) : Single datum.sixPlaces := by
  have millionths : ∀ count, Single (Text.millionths count) := by
    intro count
    have places : Single (String.ofList (Text.padded 10 6 (count % 1000000))) := by
      rw [Single, String.toList_ofList]
      exact Text.lineFeed_not_mem_padded _ _ _
    simp +decide [Text.millionths, places]
  cases datum with
  | notANumber => decide
  | infinite negative => cases negative <;> decide
  | finite negative significand exponent =>
    cases negative <;> simp +decide [sixPlaces, millionths]

/-! ### Lines of a module -/

namespace Printer

variable {printer : Printer} (single : ∀ id, Single (printer.name id))
include single

theorem single_identifier (id : ValueId) : Single (printer.identifier id) := by
  rw [identifier]
  split <;> simp +decide [single id, Literal.single_text]

theorem single_valueText (id : ValueId) : Single (printer.valueText id) := by
  simp +decide [valueText, Ty.single_text, single_identifier single id]

theorem single_slotText (slot : Slot) : Single (printer.slotText slot) := by
  cases slot with
  | none => exact (by decide : Single emptySlot)
  | some id => exact single_valueText single id

theorem single_slotIdentifier (slot : Slot) : Single (printer.slotIdentifier slot) := by
  cases slot with
  | none => exact (by decide : Single emptySlot)
  | some id => exact single_identifier single id

theorem single_slotsText (slots : List Slot) : Single (printer.slotsText slots) := by
  refine .intercalate (by decide) fun text member => ?_
  obtain ⟨slot, _, rfl⟩ := List.mem_map.mp member
  exact single_slotText single slot

theorem single_bodyOf (id : ValueId) (instruction : Instruction) :
    Single (printer.bodyOf id instruction) := by
  have operand := single_slotText single
  have callee := single_slotIdentifier single
  have operands := single_slotsText single
  have pairs : Single (", ".intercalate (instruction.incoming.map printer.pairText)) := by
    refine .intercalate (by decide) fun text member => ?_
    obtain ⟨⟨value, block⟩, _, rfl⟩ := List.mem_map.mp member
    simp +decide [pairText, callee]
  rw [bodyOf]
  cases instruction.opcode with
  | ret =>
    cases instruction.operand 0 with
    | none => exact (by decide : Single "ret")
    | some value => simp +decide [single_valueText single value]
  | unreachable => exact (by decide : Single "unreachable")
  | _ => simp +decide [operand, callee, operands, pairs, Ty.single_text]

theorem single_body (id : ValueId) : Single (printer.body id) := by
  rw [body]
  split
  · exact single_bodyOf single id _
  · decide

omit single in
theorem single_floatsText (id : ValueId) : Single (printer.floatsText id) := by
  rw [floatsText]
  split
  · decide
  · refine Single.append.mpr ⟨by decide, .join fun text member => ?_⟩
    obtain ⟨datum, _, rfl⟩ := List.mem_map.mp member
    exact Single.append.mpr ⟨by decide, datum.single_sixPlaces⟩

/-- **An instruction is printed as a single line.** -/
theorem single_line (id : ValueId) : Single (printer.line id) := by
  have body := single_body single id
  have floats := printer.single_floatsText id
  rw [line]
  split <;> simp +decide [single id, body, floats]

theorem single_parametersText (variadic : Bool) (parameters : List ValueId) :
    Single (printer.parametersText variadic parameters) := by
  refine .intercalate (by decide) fun text member => ?_
  rcases List.mem_append.mp member with parameter | dots
  · obtain ⟨id, _, rfl⟩ := List.mem_map.mp parameter
    exact single_valueText single id
  · cases variadic with
    | false => cases dots
    | true => exact List.mem_singleton.mp dots ▸ (by decide)

/-- **The head of a function is printed as a single line.** -/
theorem single_signatureLine (id : ValueId) : Single (printer.signatureLine id) := by
  rw [signatureLine]
  split
  · simp +decide [single id, Ty.single_text, single_parametersText single]
  · decide

theorem single_initialiserText (initialiser : Initialiser) :
    Single (printer.initialiserText initialiser) := by
  cases initialiser <;> simp +decide [initialiserText, single_valueText single]

/-- **A global is printed as a single line.** -/
theorem single_globalLine (id : ValueId) : Single (printer.globalLine id) := by
  rw [globalLine]
  split
  · simp +decide [single_valueText single, single_initialiserText single]
  · decide

end Printer

end SsaAmd64
