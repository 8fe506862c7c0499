/-
**Legal operands.**

An instruction takes its operands in some forms only. A move or an operation has one of its two
operands in memory at most, it does not write to a constant, and it names general-purpose registers at
its own width. An address is taken of what is in memory, and memory is addressed from a
general-purpose register. The lines of a program are made in many places, where registers, widths and
sizes are parameters; all of them have these forms.

* `Asm.LegalPair`, `Asm.Line.IsLegal`: the forms;
* `Asm.Line.isLegal_of_isDirect`, `Lowering.Emitted.isLegal`: lines that have them;
* `Module.assemble_legal`: all lines of a program have them.
-/

import SsaAmd64.Proofs.Lowering.Emitted
import SsaAmd64.Proofs.Validation.DefinedReads

namespace SsaAmd64

namespace Asm

/-! ### Forms of operands -/

namespace Operand

/-- Whether an operand is in memory. -/
def isMemory : Operand → Bool
  | memory _ _ | relative _ => true
  | register _ _ | immediate _ => false

def isImmediate : Operand → Bool
  | immediate _ => true
  | _ => false

/-- Whether an operand is named at a width, if it is a general-purpose register. Vector registers
have a single name. -/
def isNamedAt (width : Width) : Operand → Bool
  | register name named => name ∈ Register.general → named = width
  | _ => true

/-- Whether memory is addressed from a general-purpose register. A base has no width of its own: it
is always written as a register of 64 bits. -/
def isBased : Operand → Bool
  | memory base _ => base ∈ Register.general
  | _ => true

/-- The name of a register at a width is right for this width. -/
theorem isNamedAt_register (name : Register) (width : Width) :
    isNamedAt width (register name width) = true := by
  simp [isNamedAt]

/-- Direct operands are named at the width that they are direct at, and are not in memory. -/
theorem legal_of_isDirect {width : Width} {operand : Operand}
    (direct : operand.isDirect width = true) :
    operand.isNamedAt width = true ∧ operand.isBased = true := by
  cases operand with
  | register name named =>
    obtain rfl : named = width := of_decide_eq_true direct
    exact ⟨isNamedAt_register name named, rfl⟩
  | immediate => exact ⟨rfl, rfl⟩
  | memory | relative => cases direct

end Operand

/-- **The operands that a move or an operation of a width may have.** -/
structure LegalPair (width : Width) (source target : Operand) : Prop where
  /-- One of them is in memory at most. -/
  memory : ¬(source.isMemory = true ∧ target.isMemory = true)
  /-- What is written is no constant. -/
  writable : target.isImmediate = false
  named : source.isNamedAt width = true ∧ target.isNamedAt width = true
  based : source.isBased = true ∧ target.isBased = true

/-- **A line whose operands are legal.** Lines of other kinds have no operands but registers, which
stand where no other operand may stand. -/
def Line.IsLegal : Line → Prop
  | mov width source target | arithmetic _ width source target => LegalPair width source target
  | lea source _ => source.isMemory = true ∧ source.isBased = true
  | extend _ _ source _ | divide _ _ source => source.isBased = true
  | _ => True

variable {line : Line} {width : Width} {source target : Operand} {base : Register}

/-! ### Lines of each form -/

/-- A value is read into a register. -/
theorem LegalPair.into_register (named : source.isNamedAt width = true)
    (based : source.isBased = true) (register : Register) :
    LegalPair width source (.register register width) where
  memory both := Bool.false_ne_true both.2
  writable := rfl
  named := ⟨named, Operand.isNamedAt_register register width⟩
  based := ⟨based, rfl⟩

/-- A value that is not in memory is written there. -/
theorem LegalPair.into_memory (outside : source.isMemory = false)
    (named : source.isNamedAt width = true) (general : base ∈ Register.general)
    (displacement : Int) : LegalPair width source (.memory base displacement) where
  memory both := Bool.false_ne_true (outside.symm.trans both.1)
  writable := rfl
  named := ⟨named, rfl⟩
  based := by
    refine ⟨?_, decide_eq_true general⟩
    cases source with
    | memory => cases outside
    | _ => rfl

/-- **Direct lines are legal.** -/
theorem Line.isLegal_of_isDirect (direct : line.isDirect = true) : line.IsLegal := by
  cases line with
  | mov width source target | arithmetic _ width source target =>
    cases target with
    | register register named =>
      obtain ⟨same, direct⟩ := Bool.and_eq_true_iff.mp direct
      obtain rfl : named = width := of_decide_eq_true same
      obtain ⟨named, based⟩ := Operand.legal_of_isDirect direct
      exact .into_register named based register
    | immediate | memory | relative => cases direct
  | lea source target =>
    cases source with
    | relative => exact ⟨rfl, rfl⟩
    | register | immediate | memory => cases direct
  | divide _ width source => exact (Operand.legal_of_isDirect direct).2
  | extend => cases direct
  | _ => trivial

end Asm

namespace Lowering

open Asm

variable {lowering : Lowering} {base : Register} {start : Int} {line : Line}

/-- Memory operands point from general-purpose registers. -/
theorem Address.mem_general (address : lowering.Address base start) :
    base ∈ Register.general := by
  cases address with
  | home | storage | incoming | area => decide
  | pointed pointer => rcases pointer with rfl | rfl <;> decide

theorem Address.isBased (address : lowering.Address base start) :
    (Operand.memory base start).isBased = true :=
  decide_eq_true address.mem_general

/-- **The lines that are made for a function are legal.** -/
theorem Emitted.isLegal (emitted : lowering.Emitted line) : line.IsLegal := by
  cases emitted with
  | direct direct => exact Line.isLegal_of_isDirect direct
  | load address => exact .into_register rfl address.isBased _
  | store address => exact .into_memory rfl (Operand.isNamedAt_register _ _) address.mem_general _
  | fill _ address => exact .into_memory rfl rfl address.mem_general _
  | extend address => exact address.isBased
  | address address => exact ⟨rfl, address.isBased⟩
  | stack => exact .into_register rfl rfl .rsp

end Lowering

namespace Module

open Asm

variable {m : Module} {options : Options} {program : List Line}

/-- **All lines of a program are legal**, for every platform and for every module for which there is
code. -/
theorem assemble_legal (assembled : m.assemble options = .ok program) :
    ∀ line ∈ program, line.IsLegal := by
  intro line member
  rcases emitted_of_assemble assembled line member with direct | ⟨lowering, emitted, _⟩
  · exact Line.isLegal_of_isDirect direct
  · exact emitted.isLegal

/-- A function that takes and gives back seven bytes, and stores a constant of 64 bits. On Windows
the bytes are passed by the address of a copy, and given back where the caller says. -/
def parcelSteps : List Operation :=
  [.addFunction ⟨[.array 7 (.int 8), .float .double], .array 7 (.int 8), false⟩ "parcel",
    .addBlock ⟨0⟩ .finish "entry", .addLiteral (.ofNat 64 0x123456789abcdef0),
    .insert ⟨some (.finish ⟨3⟩)⟩ (.alloc (.int 64)) "x",
    .insert ⟨some (.finish ⟨3⟩)⟩ (.store ⟨5⟩ ⟨4⟩) "",
    .insert ⟨some (.finish ⟨3⟩)⟩ (.call ⟨0⟩ [⟨1⟩, ⟨2⟩]) "y",
    .insert ⟨some (.finish ⟨3⟩)⟩ (.ret (some ⟨7⟩)) ""]

def parcel : Module := builtBy "parcel" parcelSteps

theorem validate_parcel : parcel.validate = .ok () := by
  have functions : parcel.functions = [⟨0⟩] := by decide +kernel
  have flow : (Cfg.of parcel ⟨0⟩).nodes = [(⟨3⟩, [])] := by decide +kernel
  have dominators : DominatorTree.of (Cfg.mk ⟨0⟩ [(⟨3⟩, [])]).graph = ⟨[⟨3⟩], [none]⟩ :=
    DominatorTree.of_eq (by decide +kernel) (by decide +kernel) (by decide +kernel)
  exact validate_of_checks functions (by decide +kernel) (context_eq flow dominators)
    (by decide +kernel) (by decide +kernel)

/-- Lines of its code: pieces of the seven bytes, the constant by way of `%rax`, the address of the
copy, and a vector register. -/
def parcelLines : List Line :=
  [.mov .long (.memory .r11 0) (.register .rax .long),
    .mov .word (.register .rax .word) (.memory .rbp (-3)),
    .mov .byte (.memory .rbp (-1)) (.register .rax .byte),
    .mov .quad (.full .rax) (.memory .r11 0), .lea (.memory .rsp 32) .rdx,
    .mov .quad (.full .rax) (.full (.xmm 2))]

/-- The seven bytes are moved in pieces of four, two and one, each by the part of `%rax` that is as
wide. -/
theorem assemble_legal_parcel : ∃ program, parcel.assemble ⟨.windows, false⟩ = .ok program ∧
    (∀ line ∈ parcelLines, line ∈ program) ∧ ∀ line ∈ program, line.IsLegal := by
  have made : ((parcel.assemble ⟨.windows, false⟩).toOption.any fun program =>
      parcelLines.all program.contains) = true := by decide +kernel
  obtain ⟨program, assembled, _, held⟩ := Lowering.exists_program validate_parcel made
  have listed : ∀ line ∈ parcelLines, line ∈ program := fun line member =>
    List.contains_iff_mem.mp (List.all_eq_true.mp held line member)
  exact ⟨program, assembled, listed, assemble_legal assembled⟩

end Module

end SsaAmd64
