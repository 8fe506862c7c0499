/-
**Lines of assembly.**

The directives and the instructions that code generation uses. Source operands stand before
destination operands. Targets of jumps and calls are symbolic.

* `Asm.Line.definedLabel?`, `Asm.labels`: the labels that lines define;
* `Asm.Line.jumpTarget?`, `Asm.jumpTargets`: the labels that jumps name.
-/

import SsaAmd64.Asm.Register

namespace SsaAmd64

namespace Asm

inductive Operand where
  | register (register : Register) (width : Width)
  | immediate (value : Int)
  /-- Memory at a displacement from a base register. -/
  | memory (base : Register) (displacement : Int)
  /-- Memory at a symbol, relative to the instruction pointer. -/
  | relative (symbol : String)
deriving DecidableEq

/-- A register at its full width. -/
def Operand.full (register : Register) : Operand :=
  .register register .quad

/-- What a conditional jump or a set-byte instruction tests. -/
inductive Condition where
  | equal
  | notEqual
  | above
  | aboveEqual
  | below
  | belowEqual
  | greater
  | greaterEqual
  | less
  | lessEqual
deriving DecidableEq

def Condition.all : List Condition :=
  [.equal, .notEqual, .above, .aboveEqual, .below, .belowEqual, .greater, .greaterEqual, .less,
    .lessEqual]

/-- Two-operand integer operations. -/
inductive Arithmetic where
  | add
  | sub
  | imul
  | and
  | or
  | xor
  | cmp
  | test
deriving DecidableEq

def Arithmetic.all : List Arithmetic := [.add, .sub, .imul, .and, .or, .xor, .cmp, .test]

/-- Shifts by the count in `%cl`. -/
inductive Shift where
  | left
  | logicalRight
  | arithmeticRight
deriving DecidableEq

def Shift.all : List Shift := [.left, .logicalRight, .arithmeticRight]

/-- Conversions on vector registers. The integer side is always 64 bits wide. -/
inductive VectorConversion where
  | singleToDouble
  | doubleToSingle
  | singleToInt
  | doubleToInt
  | intToSingle
  | intToDouble
deriving DecidableEq

def VectorConversion.all : List VectorConversion :=
  [.singleToDouble, .doubleToSingle, .singleToInt, .doubleToInt, .intToSingle, .intToDouble]

/-- A directive or an instruction. -/
inductive Line where
  /-- A directive that opens a section, written as it stands. -/
  | directive (text : String)
  | globl (symbol : String)
  | align (boundary : Nat)
  /-- Alignment filled up with no-operation instructions. -/
  | alignCode (boundary : Nat)
  | functionType (symbol : String)
  | label (name : String)
  | ascii (content : List UInt8)
  /-- One scalar. -/
  | data (width : Width) (value : Nat)
  | bytes (content : List UInt8)
  /-- The 8-byte address of a symbol. -/
  | address (symbol : String)
  | zero (count : Nat)
  | comment (text : String)
  | mov (width : Width) (source target : Operand)
  /-- Moves a constant of 64 bits. -/
  | movabs (value : Int) (target : Register)
  /-- Loads a narrower value into all 64 bits of a register. -/
  | extend (signed : Bool) (width : Width) (source : Operand) (target : Register)
  | lea (source : Operand) (target : Register)
  | push (register : Register)
  | pop (register : Register)
  | arithmetic (operation : Arithmetic) (width : Width) (source target : Operand)
  /-- Puts a constant multiple of one register into another. -/
  | scale (factor : Int) (source target : Register)
  | shift (operation : Shift) (width : Width) (target : Register)
  | negate (width : Width) (target : Register)
  /-- Sign-extends `%rax` into `%rdx`. -/
  | cqto
  | divide (signed : Bool) (width : Width) (source : Operand)
  | set (condition : Condition) (target : Register)
  | vector (operation : VectorConversion) (source target : Register)
  | jump (target : String)
  | jumpIf (condition : Condition) (target : String)
  | call (symbol : String)
  | ret
  /-- The instruction that always faults. -/
  | trap
deriving DecidableEq

namespace Line

/-- The label that a line defines. -/
def definedLabel? : Line → Option String
  | label name => some name
  | _ => none

/-- The label that a jump names. -/
def jumpTarget? : Line → Option String
  | jump target => some target
  | jumpIf _ target => some target
  | _ => none

/-- Whether control never passes to the next line. -/
def isTransfer : Line → Bool
  | jump _ => true
  | ret => true
  | trap => true
  | _ => false

end Line

/-- The labels that lines define, in order. -/
def labels (lines : List Line) : List String :=
  lines.filterMap Line.definedLabel?

/-- The labels that the jumps of lines name, in order. -/
def jumpTargets (lines : List Line) : List String :=
  lines.filterMap Line.jumpTarget?

@[simp] theorem labels_append (first second : List Line) :
    labels (first ++ second) = labels first ++ labels second := by
  simp [labels]

theorem mem_labels_iff {name : String} {lines : List Line} :
    name ∈ labels lines ↔ .label name ∈ lines := by
  rw [labels, List.mem_filterMap]
  constructor
  · rintro ⟨line, member, defined⟩
    cases line with
    | label other =>
      obtain rfl := Option.some.inj defined
      exact member
    | _ => cases defined
  · exact fun member => ⟨_, member, rfl⟩

@[simp] theorem jumpTargets_append (first second : List Line) :
    jumpTargets (first ++ second) = jumpTargets first ++ jumpTargets second := by
  simp [jumpTargets]

end Asm

end SsaAmd64
