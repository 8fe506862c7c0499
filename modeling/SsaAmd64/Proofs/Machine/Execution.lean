/-
**Execution of assembly.**

A machine has registers of 64 bits, a memory and flags. Lines run one after the other; what is left
to run is a suffix of the program, and a jump continues behind the label that it names. Execution
stops at a return, at a call and at a trap, and wherever an instruction faults.

* `Asm.execute`: what a line other than a jump does;
* `Asm.step`, `Asm.Steps`: one step and any number of steps of a program;
* `Asm.executeAll`: lines without jumps, one after the other;
* `Asm.Steps.of_executeAll`: they are steps of every program in which they stand.

Flags are kept by the operations whose results the conditions are read from; after any other
operation nothing is known of them. Constants and displacements are taken as they are written, of
whatever size. Conversions of floats are not described.
-/

import SsaAmd64.Asm.Line
import SsaAmd64.Proofs.Machine.Memory

namespace SsaAmd64

namespace Asm

/-- The number of bits of an operand. -/
def Width.bits (width : Width) : Nat :=
  8 * width.bytes

/-- What an operation leaves behind besides its result. -/
structure Flags where
  zero : Bool
  /-- A carry out of an addition, a borrow of a subtraction. -/
  carry : Bool
  sign : Bool
  overflow : Bool

namespace Flags

variable {bits : Nat}

def ofAddition (first second : BitVec bits) : Flags :=
  let sum := first + second
  ⟨sum = 0, patternCount bits ≤ first.toNat + second.toNat, sum.msb,
    first.msb = second.msb && sum.msb ≠ first.msb⟩

def ofSubtraction (first second : BitVec bits) : Flags :=
  let difference := first - second
  ⟨difference = 0, first.toNat < second.toNat, difference.msb,
    first.msb ≠ second.msb && difference.msb ≠ first.msb⟩

def ofLogic (result : BitVec bits) : Flags :=
  ⟨result = 0, false, result.msb, false⟩

end Flags

/-- Whether a condition is met. -/
def Condition.holds (flags : Flags) : Condition → Bool
  | equal => flags.zero
  | notEqual => !flags.zero
  | above => !flags.carry && !flags.zero
  | aboveEqual => !flags.carry
  | below => flags.carry
  | belowEqual => flags.carry || flags.zero
  | greater => !flags.zero && flags.sign == flags.overflow
  | greaterEqual => flags.sign == flags.overflow
  | less => flags.sign != flags.overflow
  | lessEqual => flags.zero || flags.sign != flags.overflow

structure Machine where
  /-- The registers; of a vector register the low 64 bits. -/
  registers : Register → BitVec 64
  memory : Memory
  /-- The flags, where they are known. -/
  flags : Option Flags
  /-- The addresses of symbols. -/
  symbols : String → BitVec 64

namespace Machine

/-! ### Operands -/

def setRegister (machine : Machine) (register : Register) (value : BitVec 64) : Machine :=
  { machine with
    registers := fun other => if other = register then value else machine.registers other }

/-- The address that an operand in memory stands for. -/
def address? (machine : Machine) : Operand → Option (BitVec 64)
  | .memory base displacement => some (offset (machine.registers base) displacement)
  | .relative symbol => some (machine.symbols symbol)
  | .register _ _ => none
  | .immediate _ => none

/-- The value of the bytes at an address. -/
def load (machine : Machine) (address : BitVec 64) (count : Nat) : Nat :=
  Bytes.toNat (machine.memory.bytes address count)

/-- Puts the low bytes of a number at an address. -/
def store (machine : Machine) (address : BitVec 64) (count value : Nat) : Machine :=
  { machine with memory := machine.memory.write address (Bytes.ofNat count value) }

/-- The value of an operand, whose width is that of the instruction. -/
def read (machine : Machine) (width : Width) : Operand → BitVec width.bits
  | .register register _ => (machine.registers register).setWidth width.bits
  | .immediate value => BitVec.ofInt width.bits value
  | .memory base displacement =>
    BitVec.ofNat width.bits (machine.load (offset (machine.registers base) displacement) width.bytes)
  | .relative symbol => BitVec.ofNat width.bits (machine.load (machine.symbols symbol) width.bytes)

end Machine

/-- A register after a value of some width has been put into it: 32 bits clear the upper half, and
fewer leave the rest as it was. -/
def Width.merge (width : Width) (old : BitVec 64) (value : BitVec width.bits) : BitVec 64 :=
  match width with
  | .quad | .long => value.setWidth 64
  | .word | .byte => (old >>> width.bits <<< width.bits) ||| value.setWidth 64

namespace Machine

/-- Puts a value into an operand. -/
def write (machine : Machine) (width : Width) (value : BitVec width.bits) :
    Operand → Option Machine
  | .register register _ =>
    some (machine.setRegister register (width.merge (machine.registers register) value))
  | .memory base displacement =>
    some (machine.store (offset (machine.registers base) displacement) width.bytes value.toNat)
  | .relative symbol => some (machine.store (machine.symbols symbol) width.bytes value.toNat)
  | .immediate _ => none

def setFlags (machine : Machine) (flags : Option Flags) : Machine :=
  { machine with flags }

/-- Puts a result into an operand and keeps its flags. -/
def writeResult (machine : Machine) (width : Width) (value : BitVec width.bits)
    (flags : Option Flags) (target : Operand) : Option Machine :=
  (machine.write width value target).map fun written => written.setFlags flags

/-! ### Operations -/

/-- An operation with two operands, the first of which takes the result. -/
def arithmetic (machine : Machine) (operation : Arithmetic) (width : Width)
    (source target : Operand) : Option Machine :=
  let first := machine.read width target
  let second := machine.read width source
  match operation with
  | .add => machine.writeResult width (first + second) (some (.ofAddition first second)) target
  | .sub => machine.writeResult width (first - second) (some (.ofSubtraction first second)) target
  | .imul => machine.writeResult width (first * second) none target
  | .and => machine.writeResult width (first &&& second) (some (.ofLogic (first &&& second))) target
  | .or => machine.writeResult width (first ||| second) (some (.ofLogic (first ||| second))) target
  | .xor => machine.writeResult width (first ^^^ second) (some (.ofLogic (first ^^^ second))) target
  | .cmp => some (machine.setFlags (some (.ofSubtraction first second)))
  | .test => some (machine.setFlags (some (.ofLogic (first &&& second))))

/-- The count of a shift: the low byte of `%rcx`, modulo 64 at full width and modulo 32 below. -/
def shiftCount (machine : Machine) (width : Width) : Nat :=
  (machine.registers .rcx).toNat % 256 % if width = .quad then 64 else 32

def shift (machine : Machine) (operation : Shift) (width : Width) (target : Register) :
    Option Machine :=
  let value := machine.read width (.register target width)
  let count := machine.shiftCount width
  let result := match operation with
    | .left => value <<< count
    | .logicalRight => value >>> count
    | .arithmeticRight => value.sshiftRight count
  machine.writeResult width result none (.register target width)

/-- A division of `%rdx` and `%rax` together. It faults if the divisor is zero or the quotient does
not fit. Only divisions at full width are described. -/
def divide (machine : Machine) (signed : Bool) (divisor : BitVec 64) : Option Machine :=
  let dividend := machine.registers .rdx ++ machine.registers .rax
  let quotient := if signed then dividend.toInt.tdiv divisor.toInt
    else (dividend.toNat / divisor.toNat : Nat)
  let remainder := if signed then dividend.toInt.tmod divisor.toInt
    else (dividend.toNat % divisor.toNat : Nat)
  let fits := if signed then -0x8000000000000000 ≤ quotient ∧ quotient < 0x8000000000000000
    else quotient < 0x10000000000000000
  if divisor ≠ 0 ∧ fits then
    some (((machine.setRegister .rax (BitVec.ofInt 64 quotient)).setRegister .rdx
      (BitVec.ofInt 64 remainder)).setFlags none)
  else none

/-- Puts a register on the stack. -/
def push (machine : Machine) (register : Register) : Machine :=
  let top := offset (machine.registers .rsp) (-8)
  (machine.store top 8 (machine.registers register).toNat).setRegister .rsp top

/-- Takes a register off the stack. -/
def pop (machine : Machine) (register : Register) : Machine :=
  let top := machine.registers .rsp
  (machine.setRegister .rsp (offset top 8)).setRegister register
    (BitVec.ofNat 64 (machine.load top 8))

end Machine

/-! ### Lines -/

/-- What a line does, unless control leaves it for elsewhere than the next line. Directives do
nothing, but data is not to be run. -/
def execute : Line → Machine → Option Machine
  | .directive _, machine | .globl _, machine | .align _, machine | .alignCode _, machine
  | .functionType _, machine | .label _, machine | .comment _, machine => some machine
  | .ascii _, _ | .data _ _, _ | .bytes _, _ | .address _, _ | .zero _, _ => none
  | .mov width source target, machine => machine.write width (machine.read width source) target
  | .movabs value target, machine => some (machine.setRegister target (BitVec.ofInt 64 value))
  | .extend signed width source target, machine =>
    let value := machine.read width source
    some (machine.setRegister target
      (if signed then value.signExtend 64 else value.setWidth 64))
  | .lea source target, machine => (machine.address? source).map (machine.setRegister target)
  | .push register, machine => some (machine.push register)
  | .pop register, machine => some (machine.pop register)
  | .arithmetic operation width source target, machine =>
    machine.arithmetic operation width source target
  | .scale factor source target, machine =>
    some ((machine.setRegister target
      (machine.registers source * BitVec.ofInt 64 factor)).setFlags none)
  | .shift operation width target, machine => machine.shift operation width target
  | .negate width target, machine =>
    machine.writeResult width (-machine.read width (.register target width)) none
      (.register target width)
  | .cqto, machine =>
    some (machine.setRegister .rdx (if (machine.registers .rax).msb then BitVec.allOnes 64 else 0))
  | .divide signed .quad source, machine => machine.divide signed (machine.read .quad source)
  | .divide _ _ _, _ => none
  | .set condition target, machine => do
    let flags ← machine.flags
    machine.write .byte (BitVec.ofNat 8 (condition.holds flags).toNat) (.register target .byte)
  | .vector _ _ _, _ => none
  | .jump _, _ | .jumpIf _ _, _ | .call _, _ | .ret, _ | .trap, _ => none

/-- What stands behind a label. -/
def goto (name : String) : List Line → Option (List Line)
  | [] => none
  | line :: rest => if line.definedLabel? = some name then some rest else goto name rest

/-- What is left to run, and the machine that runs it. -/
abbrev Running := List Line × Machine

/-- One step of a program. -/
def step (program : List Line) : Running → Option Running
  | ([], _) => none
  | (.jump target :: _, machine) => (goto target program).map fun rest => (rest, machine)
  | (.jumpIf condition target :: rest, machine) => do
    let flags ← machine.flags
    if condition.holds flags then (goto target program).map fun rest => (rest, machine)
    else some (rest, machine)
  | (line :: rest, machine) => (execute line machine).map fun next => (rest, next)

/-- Any number of steps of a program. -/
inductive Steps (program : List Line) : Running → Running → Prop
  | refl (running : Running) : Steps program running running
  | head {first second last : Running} :
    step program first = some second → Steps program second last → Steps program first last

/-- Lines without jumps, one after the other. -/
def executeAll (lines : List Line) (machine : Machine) : Option Machine :=
  lines.foldlM (fun machine line => execute line machine) machine

/-! ### Running lines -/

variable {program lines first second rest : List Line} {line : Line} {machine next last : Machine}

theorem Steps.trans {start middle finish : Running} (one : Steps program start middle)
    (other : Steps program middle finish) : Steps program start finish := by
  induction one with
  | refl => exact other
  | head here _ ih => exact .head here (ih other)

/-- A line that can be executed is no jump, and its execution is a step. -/
theorem step_of_execute (executed : execute line machine = some next) :
    step program (line :: rest, machine) = some (rest, next) := by
  have ordinary : step program (line :: rest, machine) =
      (execute line machine).map fun next => (rest, next) := by
    cases line with
    | jump target => cases executed
    | jumpIf condition target => cases executed
    | _ => rfl
  rw [ordinary, executed]
  rfl

theorem step_jump {target : String} (found : goto target program = some lines) :
    step program (.jump target :: rest, machine) = some (lines, machine) := by
  rw [step, found]
  rfl

theorem step_jumpIf_of_holds {condition : Condition} {target : String} {flags : Flags}
    (known : machine.flags = some flags) (holds : condition.holds flags = true)
    (found : goto target program = some lines) :
    step program (.jumpIf condition target :: rest, machine) = some (lines, machine) := by
  rw [step, known, found]
  exact if_pos holds

theorem step_jumpIf_of_not_holds {condition : Condition} {target : String} {flags : Flags}
    (known : machine.flags = some flags) (other : condition.holds flags = false) :
    step program (.jumpIf condition target :: rest, machine) = some (rest, machine) := by
  rw [step, known]
  exact if_neg (by simp [other])

@[simp] theorem executeAll_nil (machine : Machine) : executeAll [] machine = some machine := rfl

@[simp] theorem executeAll_cons (line : Line) (lines : List Line) (machine : Machine) :
    executeAll (line :: lines) machine = (execute line machine).bind (executeAll lines) := rfl

theorem executeAll_append (first second : List Line) (machine : Machine) :
    executeAll (first ++ second) machine = (executeAll first machine).bind (executeAll second) := by
  unfold executeAll
  rw [List.foldlM_append]
  rfl

/-- Two pieces of code run one after the other. -/
theorem executeAll_append_of (one : executeAll first machine = some next)
    (other : executeAll second next = some last) :
    executeAll (first ++ second) machine = some last := by
  rw [executeAll_append, one]
  exact other

/-- **Lines without jumps are steps of every program in which they stand.** -/
theorem Steps.of_executeAll (executed : executeAll lines machine = some last) :
    Steps program (lines ++ rest, machine) (rest, last) := by
  induction lines generalizing machine with
  | nil =>
    obtain rfl : machine = last := Option.some.inj executed
    exact .refl _
  | cons line lines ih =>
    obtain ⟨next, here, later⟩ := Option.bind_eq_some_iff.mp executed
    exact .head (step_of_execute here) (ih later)

/-- A label that a program defines once is found where it stands. -/
theorem goto_of_nodup {name : String} (distinct : (labels program).Nodup)
    (place : program = first ++ .label name :: rest) : goto name program = some rest := by
  subst place
  induction first with
  | nil => exact if_pos rfl
  | cons line first ih =>
    have other : line.definedLabel? ≠ some name := by
      intro same
      rw [List.cons_append, labels, List.filterMap_cons_some same, List.nodup_cons] at distinct
      exact distinct.1 (List.mem_filterMap.mpr ⟨.label name, by simp, rfl⟩)
    rw [List.cons_append, goto, if_neg other]
    refine ih (distinct.sublist ?_)
    exact (List.sublist_cons_self _ _).filterMap _

/-- What stands behind a label stands right behind it. -/
theorem suffix_of_goto {name : String} (found : goto name program = some rest) :
    .label name :: rest <:+ program := by
  induction program with
  | nil => cases found
  | cons line program ih =>
    rw [goto] at found
    split at found
    case isTrue defined =>
      obtain rfl := Option.some.inj found
      cases line <;> cases defined
      exact List.suffix_rfl
    case isFalse => exact (ih found).trans (List.suffix_cons _ _)

/-- So it stands behind no other line. -/
theorem eq_label_of_goto {name : String} (suffix : line :: rest <:+ program)
    (found : goto name program = some rest) : line = .label name := by
  have same : line :: rest = .label name :: rest :=
    (List.suffix_of_suffix_length_le suffix (suffix_of_goto found) (Nat.le_refl _)).eq_of_length rfl
  exact (List.cons.inj same).1

end Asm

end SsaAmd64
