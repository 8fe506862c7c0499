/-
**Entry and exit of a function of integers.**

Once the parameters have been moved, their home slots hold the arguments. At a return the result is
in `%rax`, which the epilogue leaves alone.

* `Lowering.Integral.delivers`: the arguments are where the plan of the function puts them;
* `Lowering.executeAll_entry`: the parameters are in their home slots;
* `Lowering.executeAll_ret`: the code of a return up to its last line.
-/

import SsaAmd64.Lowering.Function
import SsaAmd64.Proofs.Abi.Plans
import SsaAmd64.Proofs.Lowering.Delivery
import SsaAmd64.Proofs.Lowering.Values

namespace SsaAmd64

namespace Asm

/-! ### The stack -/

/-- Pops leave all other registers but the stack pointer as they were. -/
theorem executeAll_pops (registers : List Register) (machine : Machine) {register : Register}
    (different : register ≠ .rsp) (other : register ∉ registers) :
    ∃ next, executeAll (registers.map .pop) machine = some next ∧
      next.registers register = machine.registers register := by
  induction registers generalizing machine with
  | nil => exact ⟨machine, rfl, rfl⟩
  | cons first registers ih =>
    obtain ⟨unlike, other⟩ := not_or.mp (mt List.mem_cons.mpr other)
    obtain ⟨next, done, kept⟩ := ih (machine.pop first) other
    refine ⟨next, done, kept.trans ?_⟩
    rw [Machine.pop, Machine.registers_setRegister_of_ne unlike,
      Machine.registers_setRegister_of_ne different]

end Asm

open Asm

/-- **An integer that is passed by itself is where its plan puts it.** -/
theorem ArgumentPlan.Direct.delivers {plan : ArgumentPlan} {limit count number : Nat}
    {area : BitVec 64} {machine : Machine} (direct : plan.Direct limit) (small : count ≤ 8)
    (found : plan.found area machine count = number) :
    plan.Delivers area (limit + 8) machine (Bytes.ofNat count number) := by
  subst found
  cases direct with
  | general =>
    refine .general ?_
    rw [Bytes.length_ofNat]
    exact (Bytes.ofNat_mod _ _).symm
  | @stack _ start low =>
    refine .stack (by rw [Bytes.length_ofNat]; omega) ?_
    rw [Bytes.length_ofNat]
    exact machine.bytes_eq_ofNat _ _

namespace Lowering

variable {lowering : Lowering} {base : BitVec 64} {env : Env} {machine : Machine}
variable {id : ValueId} {bits number : Nat} {lines : List Line} {arguments : List Nat}

/-! ### Parameters -/

/-- What a function of integers is called with has values for its parameters. -/
theorem Integral.assign_arguments (setting : lowering.Integral) {held : Function}
    (found : lowering.subject.function? lowering.function = some held)
    (length : arguments.length = held.signature.parameters.length) {index : Nat}
    (here : (lowering.subject.parametersOf lowering.function)[index]? = some id)
    (passed : arguments[index]? = some number) :
    Env.assign (fun _ => none)
      ((lowering.subject.parametersOf lowering.function).zip arguments) id = some number := by
  have distinct : (((lowering.subject.parametersOf lowering.function).zip arguments).map
      Prod.fst).Nodup := by
    rw [List.map_fst_zip (by rw [setting.linked.length_parametersOf found, length])]
    exact setting.linked.nodup_parametersOf lowering.function
  have member : (id, number) ∈ (lowering.subject.parametersOf lowering.function).zip arguments :=
    List.mem_of_getElem? (List.getElem?_zip_eq_some.mpr ⟨here, passed⟩)
  rw [Env.assign, lookup_of_mem distinct member, Option.some_or]

/-- A parameter has a home slot for its argument. -/
theorem Integral.exists_argument (setting : lowering.Integral) {held : Function}
    (found : lowering.subject.function? lowering.function = some held)
    {plans : List ArgumentPlan} (passes : Passes machine held.signature.parameters plans arguments)
    {index : Nat} (here : (lowering.subject.parametersOf lowering.function)[index]? = some id) :
    ∃ bits start number plan, lowering.Home id bits start ∧ plans[index]? = some plan ∧
      arguments[index]? = some number ∧ number < 2 ^ bits ∧
      plan.found (offset (machine.registers .rsp) 8) machine (Width.holding bits).bytes = number := by
  obtain ⟨type, known, parameter⟩ := setting.linked.parameter? found here
  obtain ⟨bits, number, plan, rfl, planned, passed, fits, placed⟩ := passes.get known
  obtain ⟨bits', start, home⟩ :=
    setting.exists_home (List.mem_append_left _ (List.mem_of_getElem? here))
  obtain rfl : bits' = bits :=
    Ty.int.inj (home.typed.symm.trans (Module.typeOf_parameter parameter))
  exact ⟨bits', start, number, plan, home, planned, passed, fits, placed⟩

/-- The image of a value that has been computed, as wide as its slot. -/
def image (lowering : Lowering) (env : Env) (id : ValueId) : List UInt8 :=
  Bytes.ofNat (Frame.bytesOf lowering.subject id) ((env id).getD 0)

theorem Home.image_eq {start : Int} (home : lowering.Home id bits start)
    (known : env id = some number) :
    lowering.image env id = Bytes.ofNat (Width.holding bits).bytes number := by
  have size : Frame.bytesOf lowering.subject id = (Width.holding bits).bytes := by
    rw [Frame.bytesOf, home.placed.sized]
    rfl
  rw [image, size, known, Option.getD_some]

/-- **Every argument is where the plan of the function puts it.** -/
theorem Integral.delivers (setting : lowering.Integral) {held : Function}
    (found : lowering.subject.function? lowering.function = some held) {limit : Nat}
    (direct : ∀ plan ∈ lowering.plan.arguments, plan.Direct limit)
    (passes : Passes machine held.signature.parameters lowering.plan.arguments arguments) :
    ∀ entry ∈ lowering.incomingArguments,
      entry.2.Delivers (offset (machine.registers .rsp) 8) (limit + 8) machine
        (lowering.image (Env.assign (fun _ => none)
          ((lowering.subject.parametersOf lowering.function).zip arguments)) entry.1) := by
  intro ⟨id, plan⟩ member
  obtain ⟨index, listed⟩ := List.mem_iff_getElem?.mp member
  obtain ⟨here, there⟩ := List.getElem?_zip_eq_some.mp listed
  obtain ⟨bits, start, number, plan', home, planned, passed, -, placed⟩ :=
    setting.exists_argument found passes here
  obtain rfl : plan' = plan := Option.some.inj (planned.symm.trans there)
  rw [home.image_eq (setting.assign_arguments found passes.length_arguments here passed)]
  exact (direct plan' (List.mem_of_getElem? there)).delivers (bytes_holding_le bits) placed

/-- **A function finds its arguments in the home slots of its parameters** once it has moved
them. -/
theorem executeAll_entry (setting : lowering.Integral) {held : Function}
    (found : lowering.subject.function? lowering.function = some held)
    (planned : lowering.convention.plan held.signature.parameters held.signature.result =
      .ok lowering.plan)
    (passes : Passes machine held.signature.parameters lowering.plan.arguments arguments)
    (code : lowering.saveParameters = .ok lines) :
    ∃ base next, executeAll (lowering.prologue ++ lines) machine = some next ∧
      lowering.Represents base (Env.assign (fun _ => none)
        ((lowering.subject.parametersOf lowering.function).zip arguments)) next ∧
      next.registers .rsp = offset base (-(lowering.frame.size : Int)) := by
  have signature := setting.integral.signature held found
  have direct := (Convention.direct_of_plan signature.2 signature.1 planned).2
  have few : held.signature.parameters.length ≤ 0x100000000 := by
    have fewer := setting.length_homes_le
    rw [Frame.homes, List.length_append, setting.linked.length_parametersOf found] at fewer
    omega
  obtain ⟨next, ran, foot, received, _⟩ := setting.executeAll_received found
    (setting.delivers found direct passes) (fun _ _ => Bytes.length_ofNat _ _)
    (by have size := setting.size_le; omega) code
  refine ⟨_, next, ran, .of_bytes rfl fun id number computed => ?_, foot⟩
  have member : (id, number) ∈ (lowering.subject.parametersOf lowering.function).zip arguments := by
    rw [Env.assign, Option.or_none] at computed
    exact mem_of_lookup computed
  obtain ⟨index, listed⟩ := List.mem_iff_getElem?.mp member
  obtain ⟨here, there⟩ := List.getElem?_zip_eq_some.mp listed
  obtain ⟨bits, start, number', plan, home, -, passed, fits, -⟩ :=
    setting.exists_argument found passes here
  obtain rfl : number' = number := Option.some.inj (passed.symm.trans there)
  obtain ⟨start', size, placed, bytes⟩ := received id (List.mem_of_getElem? here)
  obtain rfl : start' = start := Option.some.inj (placed.slot.symm.trans home.slot)
  obtain rfl := placed.size_eq home.placed.sized
  exact ⟨bits, start', home, fits, bytes.trans (home.image_eq computed)⟩

/-! ### Return -/

/-- **The code of a return leaves the result in `%rax`.** -/
theorem executeAll_ret {value : ValueId} (represents : lowering.Represents base env machine)
    (result : lowering.plan.result = some .integer)
    (filled : lowering.subject.operand? id 0 = some value)
    (computed : lowering.subject.valueIn env value = some number)
    (typed : lowering.subject.typeOf value = .int bits) (wide : bits ∈ registerWidths)
    (code : lowering.ret id = .ok lines) :
    ∃ first next, lines = first ++ [.ret] ∧ executeAll first machine = some next ∧
      (next.registers .rax).toNat = number := by
  rw [ret, filled] at code
  obtain ⟨load, loads, done⟩ := ok_of_bind code
  obtain rfl := Except.ok.inj done
  rw [returnValue, result] at loads
  obtain ⟨loaded, ran, value, _⟩ := executeAll_loadInt represents loads computed typed wide
  let lifted := loaded.setRegister .rsp (loaded.registers .rbp)
  have lifts : executeAll [.mov .quad (.full .rbp) (.full .rsp)] loaded = some lifted := by
    rw [executeAll_singleton, execute, Machine.read_full]
    exact Machine.write_full loaded .rsp _
  have restores : ∃ next, executeAll (savedRegisters.reverse.map .pop) lifted = some next ∧
      next.registers .rax = lifted.registers .rax :=
    executeAll_pops _ lifted (by decide) (by decide)
  obtain ⟨next, pops, kept⟩ := restores
  refine ⟨load ++ ([.mov .quad (.full .rbp) (.full .rsp)] ++ savedRegisters.reverse.map .pop), next,
    ?_, executeAll_append_of ran (executeAll_append_of lifts pops), ?_⟩
  · rw [epilogue, List.append_assoc]
    rfl
  · have fits := (represents.found computed typed wide).1
    rw [kept, Machine.registers_setRegister_of_ne (by decide), value,
      toNat_extended (le_of_registerWidths wide), BitVec.toNat_ofNat, Nat.mod_eq_of_lt fits]

end Lowering

end SsaAmd64
