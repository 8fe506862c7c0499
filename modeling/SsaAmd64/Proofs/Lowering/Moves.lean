/-
**What code may do.**

A line writes few registers and stores at few places. What a called function, a conversion between
floats or a condition comes to is not known, so a program has many executions: every result of these
is allowed for, and a conditional jump may go either way. A called function keeps the reserved
registers and may change everything else.

* `Asm.Line.written`, `Asm.registers_of_execute`: the registers that a line writes;
* `Asm.Line.ranges`, `Asm.bytes_of_execute`: the memory that a line writes;
* `Asm.Move`, `Asm.Execution`: the executions of a program;
* `Asm.Execution.through`: lines that do not jump are run one after the other;
* `Asm.load_pushes`: registers that have been put on the stack are found there.
-/

import Mathlib.Logic.Relation
import SsaAmd64.Proofs.Lowering.Lines

namespace SsaAmd64

namespace Asm

/-! ### Registers that lines write -/

/-- The register that an operand stands for when it is written. -/
def Operand.written : Operand → List Register
  | register name _ => [name]
  | immediate _ | memory _ _ | relative _ => []

/-- **The registers that a line writes.** What a called function does is not part of the call. -/
def Line.written : Line → List Register
  | mov _ _ target | arithmetic _ _ _ target => target.written
  | movabs _ target | extend _ _ _ target | lea _ target | scale _ _ target | shift _ _ target
  | negate _ target | set _ target | vector _ _ target => [target]
  | push _ | call _ | ret => [.rsp]
  | pop register => [.rsp, register]
  | cqto => [.rdx]
  | divide _ _ _ => [.rax, .rdx]
  | _ => []

/-- The memory that an operand stands for when it is written: an address and a number of bytes. -/
def Operand.ranges (machine : Machine) (width : Width) : Operand → List (BitVec 64 × Nat)
  | memory base displacement => [(offset (machine.registers base) displacement, width.bytes)]
  | relative symbol => [(machine.symbols symbol, width.bytes)]
  | register _ _ | immediate _ => []

/-- **The memory that a line writes.** -/
def Line.ranges (machine : Machine) : Line → List (BitVec 64 × Nat)
  | mov width _ target | arithmetic _ width _ target => target.ranges machine width
  | push _ => [(offset (machine.registers .rsp) (-8), 8)]
  | _ => []

/-- Plain lines write where they store. -/
theorem Line.ranges_of_isPlain {line : Line} (plain : line.isPlain = true) (machine : Machine) :
    line.ranges machine = line.stores.map fun store =>
      (offset (machine.registers store.1) store.2.1, store.2.2) := by
  cases line with
  | mov width source target => cases target <;> first | rfl | cases plain
  | arithmetic operation width source target => cases target <;> first | rfl | cases plain
  | push register => cases plain
  | _ => rfl

/-- Plain lines write no reserved registers. -/
theorem Line.not_mem_written {line : Line} {register : Register} (plain : line.isPlain = true)
    (reserved : register.isReserved = true) : register ∉ line.written := by
  have others : ∀ registers : List Register, (registers.all fun other => !other.isReserved) = true →
      register ∉ registers := by
    intro registers free member
    have free := List.all_eq_true.mp free register member
    rw [reserved] at free
    cases free
  have single : ∀ target : Register, (!target.isReserved) = true → register ∉ [target] :=
    fun target free => others [target] (by rw [List.all_cons, free]; rfl)
  have operand : ∀ target : Operand, target.isPlain = true → register ∉ target.written := by
    intro target plain
    cases target with
    | register name width => exact single name plain
    | _ => exact List.not_mem_nil
  cases line with
  | mov width source target => exact operand target plain
  | arithmetic operation width source target => exact operand target plain
  | movabs value target => exact single target plain
  | extend signed width source target => exact single target plain
  | lea source target => exact single target plain
  | scale factor source target => exact single target plain
  | shift operation width target => exact single target plain
  | negate width target => exact single target plain
  | set condition target => exact single target plain
  | vector operation source target => exact single target plain
  | cqto => exact others [.rdx] rfl
  | divide signed width source => exact others [.rax, .rdx] rfl
  | _ => cases plain

namespace Machine

variable {machine next : Machine} {width : Width} {value : BitVec width.bits} {target : Operand}
variable {flags : Option Flags} {register : Register} {place : BitVec 64} {count : Nat}

theorem registers_of_write (done : machine.write width value target = some next)
    (other : register ∉ target.written) : next.registers register = machine.registers register := by
  cases target with
  | register name _ =>
    obtain rfl := Option.some.inj done
    exact registers_setRegister_of_ne (fun same => other (List.mem_singleton.mpr same)) _
  | memory base displacement =>
    obtain rfl := Option.some.inj done
    rfl
  | relative symbol =>
    obtain rfl := Option.some.inj done
    rfl
  | immediate constant => cases done

theorem registers_of_writeResult (done : machine.writeResult width value flags target = some next)
    (other : register ∉ target.written) : next.registers register = machine.registers register := by
  obtain ⟨written, here, rfl⟩ := Option.map_eq_some_iff.mp done
  have kept := registers_of_write here other
  exact kept

theorem bytes_of_write (done : machine.write width value target = some next)
    (missed : ∀ range ∈ target.ranges machine width, Apart range.1 range.2 place count) :
    next.memory.bytes place count = machine.memory.bytes place count := by
  have stored : ∀ address, Apart address width.bytes place count →
      (machine.store address width.bytes value.toNat).memory.bytes place count =
        machine.memory.bytes place count := by
    intro address apart
    refine Memory.bytes_write_of_apart ?_
    rwa [Bytes.length_ofNat]
  cases target with
  | register name _ =>
    obtain rfl := Option.some.inj done
    rfl
  | memory base displacement =>
    obtain rfl := Option.some.inj done
    exact stored _ (missed _ List.mem_cons_self)
  | relative symbol =>
    obtain rfl := Option.some.inj done
    exact stored _ (missed _ List.mem_cons_self)
  | immediate constant => cases done

theorem bytes_of_writeResult (done : machine.writeResult width value flags target = some next)
    (missed : ∀ range ∈ target.ranges machine width, Apart range.1 range.2 place count) :
    next.memory.bytes place count = machine.memory.bytes place count := by
  obtain ⟨written, here, rfl⟩ := Option.map_eq_some_iff.mp done
  have kept := bytes_of_write here missed
  exact kept

/-- A division that does not fault puts its results into two registers. -/
theorem eq_of_divide {signed : Bool} {divisor : BitVec 64}
    (done : machine.divide signed divisor = some next) : ∃ quotient remainder,
      next = ((machine.setRegister .rax quotient).setRegister .rdx remainder).setFlags none := by
  unfold divide at done
  cases signed <;>
  · obtain ⟨_, done⟩ := Option.ite_none_right_eq_some.mp done
    exact ⟨_, _, (Option.some.inj done).symm⟩

end Machine

section Execution

variable {line : Line} {machine next : Machine} {register : Register} {place : BitVec 64}
variable {count : Nat}

theorem registers_of_arithmetic {operation : Arithmetic} {width : Width} {source target : Operand}
    (done : machine.arithmetic operation width source target = some next)
    (other : register ∉ target.written) : next.registers register = machine.registers register := by
  cases operation with
  | cmp | test =>
    obtain rfl := Option.some.inj done
    rfl
  | _ => exact Machine.registers_of_writeResult done other

/-- **A line leaves all registers but those that it writes.** -/
theorem registers_of_execute (done : execute line machine = some next)
    (other : register ∉ line.written) : next.registers register = machine.registers register := by
  have single : ∀ {target : Register} (value : BitVec 64), register ∉ [target] →
      (machine.setRegister target value).registers register = machine.registers register :=
    fun value other => Machine.registers_setRegister_of_ne (mt List.mem_singleton.mpr other) value
  cases line with
  | directive | globl | align | alignCode | functionType | label | comment =>
    obtain rfl := Option.some.inj done
    rfl
  | mov width source target => exact Machine.registers_of_write done other
  | movabs value target | extend signed width source target | scale factor source target | cqto =>
    obtain rfl := Option.some.inj done
    exact single _ other
  | lea source target =>
    obtain ⟨address, _, rfl⟩ := Option.map_eq_some_iff.mp done
    exact single _ other
  | push pushed =>
    obtain rfl := Option.some.inj done
    exact Machine.registers_setRegister_of_ne (mt List.mem_singleton.mpr other) _
  | pop popped =>
    obtain rfl := Option.some.inj done
    obtain ⟨pointer, other⟩ := not_or.mp (mt List.mem_cons.mpr other)
    refine (Machine.registers_setRegister_of_ne (mt List.mem_singleton.mpr other) _).trans ?_
    exact Machine.registers_setRegister_of_ne pointer _
  | arithmetic operation width source target => exact registers_of_arithmetic done other
  | shift operation width target =>
    unfold execute Machine.shift at done
    exact Machine.registers_of_writeResult done other
  | negate width target => exact Machine.registers_of_writeResult done other
  | divide signed width source =>
    cases width with
    | quad =>
      obtain ⟨unlike, other⟩ := not_or.mp (mt List.mem_cons.mpr other)
      obtain ⟨quotient, remainder, rfl⟩ := Machine.eq_of_divide done
      refine (Machine.registers_setRegister_of_ne (mt List.mem_singleton.mpr other) _).trans ?_
      exact Machine.registers_setRegister_of_ne unlike _
    | _ => cases done
  | set condition target =>
    obtain ⟨flags, _, done⟩ := Option.bind_eq_some_iff.mp done
    exact Machine.registers_of_write done other
  | _ => cases done

/-- **A line leaves all memory but that which it writes.** -/
theorem bytes_of_execute (done : execute line machine = some next)
    (missed : ∀ range ∈ line.ranges machine, Apart range.1 range.2 place count) :
    next.memory.bytes place count = machine.memory.bytes place count := by
  cases line with
  | directive | globl | align | alignCode | functionType | label | comment | movabs | extend | scale
  | cqto | pop =>
    obtain rfl := Option.some.inj done
    rfl
  | mov width source target => exact Machine.bytes_of_write done missed
  | lea source target =>
    obtain ⟨address, _, rfl⟩ := Option.map_eq_some_iff.mp done
    rfl
  | push register =>
    obtain rfl := Option.some.inj done
    have apart := missed (offset (machine.registers .rsp) (-8), 8) List.mem_cons_self
    refine Memory.bytes_write_of_apart ?_
    rwa [Bytes.length_ofNat]
  | arithmetic operation width source target =>
    cases operation with
    | cmp | test =>
      obtain rfl := Option.some.inj done
      rfl
    | _ => exact Machine.bytes_of_writeResult done missed
  | shift operation width target =>
    unfold execute Machine.shift at done
    exact Machine.bytes_of_writeResult done (List.forall_mem_nil _)
  | negate width target => exact Machine.bytes_of_writeResult done (List.forall_mem_nil _)
  | divide signed width source =>
    cases width with
    | quad =>
      obtain ⟨quotient, remainder, rfl⟩ := Machine.eq_of_divide done
      rfl
    | _ => cases done
  | set condition target =>
    obtain ⟨flags, _, done⟩ := Option.bind_eq_some_iff.mp done
    exact Machine.bytes_of_write done (List.forall_mem_nil _)
  | _ => cases done

/-- Lines that write no memory, one after the other. -/
theorem bytes_of_executeAll {lines : List Line} (done : executeAll lines machine = some next)
    (none : ∀ line ∈ lines, ∀ machine, line.ranges machine = []) :
    next.memory.bytes place count = machine.memory.bytes place count := by
  induction lines generalizing machine with
  | nil =>
    obtain rfl := Option.some.inj done
    rfl
  | cons line lines ih =>
    obtain ⟨between, here, later⟩ := Option.bind_eq_some_iff.mp done
    obtain ⟨first, none⟩ := List.forall_mem_cons.mp none
    rw [ih later none]
    refine bytes_of_execute here ?_
    rw [first]
    exact List.forall_mem_nil _

end Execution

/-! ### Executions -/

/-- What is known of a machine after a call: the reserved registers are as they were. -/
def Machine.Keeps (before after : Machine) : Prop :=
  ∀ register, register.isReserved = true → after.registers register = before.registers register

/-- **A move of a program.** Where control goes at a condition, and what comes of a call, of a
conversion and of a test, may be anything that the reserved registers do not depend on. -/
inductive Move (program : List Line) : Running → Running → Prop
  | execute {line : Line} {rest : List Line} {machine next : Machine} :
    Asm.execute line machine = some next → Move program (line :: rest, machine) (rest, next)
  | jump {target : String} {rest lines : List Line} {machine : Machine} :
    goto target program = some lines →
    Move program (.jump target :: rest, machine) (lines, machine)
  | taken {condition : Condition} {target : String} {rest lines : List Line} {machine : Machine} :
    goto target program = some lines →
    Move program (.jumpIf condition target :: rest, machine) (lines, machine)
  | skipped {condition : Condition} {target : String} {rest : List Line} {machine : Machine} :
    Move program (.jumpIf condition target :: rest, machine) (rest, machine)
  | call {symbol : String} {rest : List Line} {machine after : Machine} : machine.Keeps after →
    Move program (.call symbol :: rest, machine) (rest, after)
  | convert {operation : VectorConversion} {source target : Register} {rest : List Line}
    {machine : Machine} (value : BitVec 64) :
    Move program (.vector operation source target :: rest, machine)
      (rest, machine.setRegister target value)
  | set {condition : Condition} {target : Register} {rest : List Line} {machine : Machine}
    (value : BitVec 64) :
    Move program (.set condition target :: rest, machine) (rest, machine.setRegister target value)

/-- **An execution of a program**, from one place to another. -/
abbrev Execution (program : List Line) : Running → Running → Prop :=
  Relation.ReflTransGen (Move program)

variable {program lines rest : List Line} {machine last : Machine} {first second running : Running}

/-- A line that is no jump is executed. -/
theorem step_of_no_jump {line : Line} (ordinary : line.jumpTarget? = none) :
    step program (line :: rest, machine) =
      (execute line machine).map fun next => (rest, next) := by
  cases line with
  | jump target => cases ordinary
  | jumpIf condition target => cases ordinary
  | _ => rfl

/-- What a machine does is a move. -/
theorem Move.of_step (stepped : step program first = some second) : Move program first second := by
  obtain ⟨_ | ⟨line, rest⟩, machine⟩ := first
  · cases stepped
  cases leads : line.jumpTarget? with
  | none =>
    rw [step_of_no_jump leads] at stepped
    obtain ⟨next, done, rfl⟩ := Option.map_eq_some_iff.mp stepped
    exact .execute done
  | some name =>
    cases line with
    | jump target =>
      obtain ⟨lines, found, rfl⟩ := Option.map_eq_some_iff.mp stepped
      exact .jump found
    | jumpIf condition target =>
      obtain ⟨flags, _, stepped⟩ := Option.bind_eq_some_iff.mp stepped
      split at stepped
      case isTrue =>
        obtain ⟨lines, found, rfl⟩ := Option.map_eq_some_iff.mp stepped
        exact .taken found
      case isFalse =>
        obtain rfl := Option.some.inj stepped
        exact .skipped
    | _ => cases leads

/-- The executions of a machine are among those of the program. -/
theorem Execution.of_steps (steps : Steps program first second) :
    Execution program first second := by
  induction steps with
  | refl running => exact .refl
  | head here _ ih => exact .head (.of_step here) ih

/-- **A plain line goes on to the next**, keeps the reserved registers, and writes where it
stores. -/
theorem Move.of_isPlain {line : Line} (plain : line.isPlain = true)
    (move : Move program (line :: rest, machine) second) :
    second.1 = rest ∧ machine.Keeps second.2 ∧ ∀ place count,
      (∀ store ∈ line.stores, Apart (offset (machine.registers store.1) store.2.1) store.2.2 place
        count) → second.2.memory.bytes place count = machine.memory.bytes place count := by
  have unlike : ∀ {target : Register}, target ∈ line.written → ∀ register,
      register.isReserved = true → register ≠ target := by
    rintro _ written register reserved rfl
    exact Line.not_mem_written plain reserved written
  cases move with
  | execute done =>
    refine ⟨rfl, fun register reserved => registers_of_execute done
      (Line.not_mem_written plain reserved), fun place count missed => bytes_of_execute done ?_⟩
    rw [Line.ranges_of_isPlain plain]
    exact List.forall_mem_map.mpr missed
  | convert value | set value =>
    exact ⟨rfl, fun register reserved =>
      Machine.registers_setRegister_of_ne (unlike List.mem_cons_self register reserved) _,
      fun _ _ _ => rfl⟩
  | _ => cases plain

theorem Move.suffix (move : Move program first second) (suffix : first.1 <:+ program) :
    second.1 <:+ program := by
  cases move with
  | jump found | taken found => exact (List.suffix_cons _ _).trans (suffix_of_goto found)
  | _ => exact (List.suffix_cons _ _).trans suffix

/-- **Executions stay in the program.** -/
theorem Execution.suffix (path : Execution program first second) (suffix : first.1 <:+ program) :
    second.1 <:+ program := by
  induction path with
  | refl => exact suffix
  | tail _ move ih => exact move.suffix ih

/-- **Lines that do not jump are run one after the other**, unless one of them is as far as an
execution gets. -/
theorem Execution.through {moves : Running → Running → Prop}
    (sound : ∀ first second, moves first second → Move program first second)
    (sure : ∀ line ∈ lines, ∀ condition target, line ≠ .set condition target)
    (ran : executeAll lines machine = some last)
    (path : Relation.ReflTransGen moves (lines ++ rest, machine) running) :
    (∃ front line later, lines = front ++ line :: later ∧ running.1 = line :: (later ++ rest)) ∨
      Relation.ReflTransGen moves (rest, last) running := by
  induction lines generalizing machine with
  | nil =>
    obtain rfl := Option.some.inj ran
    exact .inr path
  | cons line lines ih =>
    obtain ⟨next, here, later⟩ := Option.bind_eq_some_iff.mp ran
    obtain ⟨certain, sure⟩ := List.forall_mem_cons.mp sure
    rcases path.cases_head with rfl | ⟨second, moved, path⟩
    · exact .inl ⟨[], line, lines, rfl, rfl⟩
    · -- for all lines but calls and those with unknown results, a move is what `execute` does
      have same : second = (lines ++ rest, next) := by
        cases sound _ _ moved with
        | execute done =>
          obtain rfl := Option.some.inj (done.symm.trans here)
          rfl
        | set value => exact absurd rfl (certain _ _)
        | _ => cases here
      subst same
      rcases ih sure later path with ⟨front, other, behind, rfl, stands⟩ | reached
      · exact .inl ⟨line :: front, other, behind, rfl, stands⟩
      · exact .inr reached

/-! ### Executions that spare some bytes -/

/-- Whether a line may change memory that is out of sight: a call, or a store through another
register than those that the frame hangs on. -/
def Line.isWild : Line → Bool
  | call _ => true
  | line => line.stores.any fun store => store.1 ≠ .rbp && store.1 ≠ .rsp

/-- **A move that leaves some bytes as they are** as far as they are out of sight. -/
structure SparingMove (program : List Line) (place : BitVec 64) (count : Nat)
    (first second : Running) : Prop where
  move : Move program first second
  spared : ∀ line ∈ first.1.head?, line.isWild = true →
    second.2.memory.bytes place count = first.2.memory.bytes place count

/-- **An execution that spares some bytes.** -/
abbrev SparingExecution (program : List Line) (place : BitVec 64) (count : Nat) :
    Running → Running → Prop :=
  Relation.ReflTransGen (SparingMove program place count)

theorem SparingExecution.execution {place : BitVec 64} {count : Nat}
    (path : SparingExecution program place count first second) : Execution program first second :=
  Relation.ReflTransGen.mono (fun _ _ => SparingMove.move) _ _ path

/-- Lines that stay in sight are run one after the other. -/
theorem SparingExecution.of_executeAll {place : BitVec 64} {count : Nat}
    (calm : ∀ line ∈ lines, line.isWild = false) (ran : executeAll lines machine = some last) :
    SparingExecution program place count (lines ++ rest, machine) (rest, last) := by
  induction lines generalizing machine with
  | nil =>
    obtain rfl := Option.some.inj ran
    exact .refl
  | cons line lines ih =>
    obtain ⟨next, here, later⟩ := Option.bind_eq_some_iff.mp ran
    obtain ⟨first, calm⟩ := List.forall_mem_cons.mp calm
    refine .head ⟨.execute here, fun other head wild => ?_⟩ (ih calm later)
    obtain rfl := Option.some.inj head
    rw [first] at wild
    cases wild

/-! ### The stack -/

/-- **Registers that have been put on the stack are found there**, one below the other. -/
theorem load_pushes (registers : List Register) (machine : Machine) (other : .rsp ∉ registers)
    (short : 8 * registers.length ≤ 0x10000000000000000) :
    ∃ next, executeAll (registers.map .push) machine = some next ∧
      ∀ index register, registers[index]? = some register →
        next.load (offset (machine.registers .rsp) (-(8 * (index + 1) : Nat))) 8 =
          (machine.registers register).toNat := by
  induction registers generalizing machine with
  | nil => exact ⟨machine, rfl, nofun⟩
  | cons first registers ih =>
    obtain ⟨unlike, other⟩ := not_or.mp (mt List.mem_cons.mpr other)
    rw [List.length_cons] at short
    let top := offset (machine.registers .rsp) (-8)
    have foot : (machine.push first).registers .rsp = top := Machine.registers_setRegister_self _ _ _
    obtain ⟨next, ran, found⟩ := ih (machine.push first) other (by omega)
    obtain ⟨next', writes, ran', _, wrote, below⟩ := wrote_pushes registers (machine.push first)
    obtain rfl := Option.some.inj (ran'.symm.trans ran)
    refine ⟨next', ran, fun index register listed => ?_⟩
    cases index with
    | zero =>
      obtain rfl := Option.some.inj listed
      have stays : next'.memory.bytes top 8 = (machine.push first).memory.bytes top 8 := by
        refine wrote.bytes_eq fun write member => ?_
        have lower := below write member
        rw [foot] at lower
        have missed : write.Misses (offset top (0 : Nat)) 8 := lower.misses (by omega)
        rwa [Int.natCast_zero, offset_zero] at missed
      have value : (machine.push first).load top 8 = (machine.registers first).toNat := by
        refine (Machine.load_store_self machine top _ (by decide)).trans ?_
        exact Nat.mod_eq_of_lt (machine.registers first).isLt
      exact (congrArg Bytes.toNat stays).trans value
    | succ index =>
      have pushed : register ∈ registers := List.mem_of_getElem? listed
      have kept : (machine.push first).registers register = machine.registers register := by
        refine Machine.registers_setRegister_of_ne (fun same => other ?_) _
        rwa [← same]
      have deeper : (-8 : Int) + -(8 * (index + 1) : Nat) = -(8 * (index + 1 + 1) : Nat) := by omega
      have value := found index register listed
      rwa [foot, kept, offset_offset, deeper] at value

end Asm

end SsaAmd64
