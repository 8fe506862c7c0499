/-
**Arguments of any kind reach the home slots of parameters.**

The argument area lies above the frame of the callee, so neither the prologue nor the moves of other
parameters reach an argument before it has been moved.

* `ArgumentPlan.Delivers`: the bytes of an argument where a plan puts them;
* `Lowering.wrote_prologue`: what the prologue changes;
* `Lowering.Prepared.wrote_saveParameters`: all arguments are written into home slots;
* `Lowering.Prepared.executeAll_received`: they are there once a function has been entered.
-/

import SsaAmd64.Proofs.Abi.Area
import SsaAmd64.Proofs.Lowering.Operands

namespace SsaAmd64

open Asm

namespace ArgumentPlan

/-- **The bytes of an argument are where a plan puts them**: in a register, on the stack, or in a
copy whose address is in a register or on the stack. What is on the stack lies within a number of
bytes from the start of the argument area. -/
inductive Delivers (area : BitVec 64) (limit : Nat) (machine : Machine) (bytes : List UInt8) :
    ArgumentPlan → Prop
  | general {passing : Passing} {register : Register}
    (held : Bytes.ofNat bytes.length (machine.registers register).toNat = bytes) :
    Delivers area limit machine bytes ⟨passing, .general register, none⟩
  | vector {passing : Passing} {register : Register} {companion : Option Register}
    (held : Bytes.ofNat bytes.length (machine.registers register).toNat = bytes) :
    Delivers area limit machine bytes ⟨passing, .vector register companion, none⟩
  | stack {passing : Passing} {start : Nat} (inside : start + bytes.length ≤ limit)
    (held : machine.memory.bytes (offset area start) bytes.length = bytes) :
    Delivers area limit machine bytes ⟨passing, .stack start, none⟩
  | copyInRegister {passing : Passing} {register : Register} {copy position : Nat}
    (inside : position + bytes.length ≤ limit)
    (points : machine.registers register = offset area position)
    (held : machine.memory.bytes (offset area position) bytes.length = bytes) :
    Delivers area limit machine bytes ⟨passing, .general register, some copy⟩
  | copyOnStack {passing : Passing} {start copy position : Nat}
    (inside : position + bytes.length ≤ limit) (room : start + 8 ≤ limit)
    (points : machine.memory.bytes (offset area start) 8 =
      Bytes.ofNat 8 (offset area position).toNat)
    (held : machine.memory.bytes (offset area position) bytes.length = bytes) :
    Delivers area limit machine bytes ⟨passing, .stack start, some copy⟩

variable {plan other : ArgumentPlan} {area : BitVec 64} {limit : Nat} {machine next : Machine}
variable {bytes : List UInt8}

/-- Plans that agree are met alike. -/
theorem Delivers.congr (delivers : plan.Delivers area limit machine bytes)
    (agrees : other.Agrees plan) : other.Delivers area limit machine bytes := by
  obtain ⟨_, place, copy⟩ := other
  obtain ⟨same, copied⟩ := agrees
  dsimp only at same copied
  subst same
  cases delivers with
  | general held =>
    obtain rfl := Option.isNone_iff_eq_none.mp (Option.isSome_eq_false_iff.mp copied)
    exact .general held
  | vector held =>
    obtain rfl := Option.isNone_iff_eq_none.mp (Option.isSome_eq_false_iff.mp copied)
    exact .vector held
  | stack inside held =>
    obtain rfl := Option.isNone_iff_eq_none.mp (Option.isSome_eq_false_iff.mp copied)
    exact .stack inside held
  | copyInRegister inside points held =>
    obtain ⟨_, rfl⟩ := Option.isSome_iff_exists.mp copied
    exact .copyInRegister inside points held
  | copyOnStack inside room points held =>
    obtain ⟨_, rfl⟩ := Option.isSome_iff_exists.mp copied
    exact .copyOnStack inside room points held

/-- Arguments stay where they are while their registers and the argument area do. -/
theorem Delivers.of_same (delivers : plan.Delivers area limit machine bytes)
    (kept : ∀ register ∈ plan.registers, next.registers register = machine.registers register)
    (same : ∀ start count : Nat, start + count ≤ limit →
      next.memory.bytes (offset area start) count = machine.memory.bytes (offset area start) count) :
    plan.Delivers area limit next bytes := by
  cases delivers with
  | general held => exact .general (by rwa [kept _ List.mem_cons_self])
  | vector held => exact .vector (by rwa [kept _ List.mem_cons_self])
  | stack inside held => exact .stack inside (by rwa [same _ _ inside])
  | copyInRegister inside points held =>
    exact .copyInRegister inside (by rwa [kept _ List.mem_cons_self]) (by rwa [same _ _ inside])
  | copyOnStack inside room points held =>
    exact .copyOnStack inside room (by rwa [same _ _ room]) (by rwa [same _ _ inside])

end ArgumentPlan

namespace Lowering

variable {lowering : Lowering} {machine : Machine} {parameter : ValueId} {plan : ArgumentPlan}
variable {lines : List Line} {start : Int} {size limit : Nat} {bytes : List UInt8}
variable {register : Register}

/-- The displacement of an incoming argument, seen from the start of the argument area. -/
theorem offset_incomingDisplacement (base : BitVec 64) (start : Nat) :
    offset base (incomingDisplacement start) = offset (offset base 32) start := by
  rw [incomingDisplacement, ← offset_offset, offset_signed64]
  rfl

/-- A copy is moved from where an operand says. -/
theorem wrote_saveCopy {address : BitVec 64} {source : Operand}
    (points : machine.read .quad source = address)
    (held : machine.memory.bytes address bytes.length = bytes)
    (apart : Apart (offset (machine.registers .rbp) start) bytes.length address bytes.length) :
    ∃ next, executeAll (.mov .quad source (.full .r11) ::
        copyMemory .r11 0 .rbp start bytes.length) machine = some next ∧
      machine.Wrote [.rax, .r11] [⟨offset (machine.registers .rbp) start, bytes⟩] next := by
  obtain ⟨loaded, loads, value, kept⟩ := wrote_load machine source .r11
  have base : loaded.registers .rbp = machine.registers .rbp := kept.registers .rbp (by decide)
  have origin : offset (loaded.registers .r11) 0 = address := by
    rw [offset_zero, value, points]
  obtain ⟨next, ran, wrote⟩ : ∃ next,
      executeAll (copyMemory .r11 0 .rbp start bytes.length) loaded = some next ∧
      loaded.Wrote [.rax] [⟨offset (loaded.registers .rbp) start,
        loaded.memory.bytes (offset (loaded.registers .r11) 0) bytes.length⟩] next :=
    wrote_copyMemory loaded (by decide) (by decide) (by rwa [base, origin])
  rw [base, origin, kept.bytes_eq (List.forall_mem_nil _), held] at wrote
  have subset : [.rax] ⊆ [Register.rax, .r11] := by decide
  have subset' : [.r11] ⊆ [Register.rax, .r11] := by decide
  exact ⟨next, executeAll_append_of loads ran, (kept.mono subset').trans (wrote.mono subset)⟩

/-- **A parameter is moved into its home slot.** -/
theorem wrote_saveParameter (prepared : lowering.Prepared)
    (placed : lowering.Placed parameter start size)
    (delivers : plan.Delivers (offset (machine.registers .rbp) 32) limit machine bytes)
    (length : bytes.length = size)
    (fits : 32 + limit + lowering.frame.size ≤ 0x10000000000000000)
    (code : lowering.saveParameter parameter plan = .ok lines) :
    ∃ next, executeAll lines machine = some next ∧ machine.Wrote [.rax, .r11]
      [⟨offset (machine.registers .rbp) start, bytes⟩] next := by
  rw [saveParameter, placed.slot_eq] at code
  obtain ⟨_, known, code⟩ := ok_of_bind code
  cases known
  rw [placed.sizeOf_eq] at code
  obtain ⟨_, known, code⟩ := ok_of_bind code
  cases known
  subst length
  have subset : [.rax] ⊆ [Register.rax, .r11] := by decide
  -- the slot lies below the argument area
  have apart : ∀ position : Nat, position + bytes.length ≤ limit →
      Apart (offset (machine.registers .rbp) start) bytes.length
        (offset (offset (machine.registers .rbp) 32) position) bytes.length := by
    intro position inside
    have above : (32 : Int) + position = (32 + position : Nat) := by omega
    rw [offset_offset, above]
    exact (placed.below prepared rfl _).misses (by omega)
  cases delivers with
  | general held =>
    obtain ⟨next, ran, wrote⟩ := wrote_storeRegister placed code machine
    rw [held] at wrote
    exact ⟨next, ran, wrote.mono subset⟩
  | @vector _ register _ held =>
    obtain ⟨store, stores, code⟩ := ok_of_bind code
    obtain rfl := Except.ok.inj code
    obtain ⟨loaded, loads, value, kept⟩ := wrote_load machine (.full register) .rax
    obtain ⟨next, ran, wrote⟩ := wrote_storeRegister placed stores loaded
    rw [value, Machine.read_full, held, kept.registers .rbp (by decide)] at wrote
    refine ⟨next, executeAll_append_of loads ran, ?_⟩
    exact (kept.trans wrote).mono subset
  | @stack _ place inside held =>
    obtain rfl := Except.ok.inj code
    have apart := apart place inside
    rw [← offset_incomingDisplacement] at apart held
    obtain ⟨next, ran, wrote⟩ : ∃ next, executeAll (copyMemory .rbp (incomingDisplacement place)
        .rbp start bytes.length) machine = some next ∧ machine.Wrote [.rax] _ next :=
      wrote_copyMemory machine (by decide) (by decide) apart
    rw [held] at wrote
    exact ⟨next, ran, wrote.mono subset⟩
  | @copyInRegister _ register _ position inside points held =>
    obtain rfl := Except.ok.inj code
    exact wrote_saveCopy ((Machine.read_full machine register).trans points) held
      (apart position inside)
  | @copyOnStack _ place _ position inside room points held =>
    obtain rfl := Except.ok.inj code
    refine wrote_saveCopy ?_ held (apart position inside)
    show BitVec.ofNat 64 (Bytes.toNat (machine.memory.bytes
      (offset (machine.registers .rbp) (incomingDisplacement place)) 8)) = _
    have word : (offset (offset (machine.registers .rbp) 32) position).toNat < patternCount 64 :=
      BitVec.isLt _
    rw [offset_incomingDisplacement, points, Bytes.toNat_ofNat, Nat.mod_eq_of_lt word]
    exact (BitVec.ofNat_toNat 64 _).trans (BitVec.setWidth_eq _)

/-! ### Entry -/

/-- **The prologue points `%rbp` at the saved registers and reserves the frame below them.** The
address of a result in memory is kept in `%r15`. -/
theorem wrote_prologue (lowering : Lowering) (machine : Machine) :
    ∃ next writes, executeAll lowering.prologue machine = some next ∧
      next.registers .rbp = offset (machine.registers .rsp) (-24) ∧
      next.registers .rsp = offset (next.registers .rbp) (-(lowering.frame.size : Int)) ∧
      machine.Wrote [.rsp, .rbp, .r15] writes next ∧
      (∀ write ∈ writes, write.Below (machine.registers .rsp) 24) ∧
      (lowering.plan.result = some .memory →
        next.registers .r15 = machine.registers lowering.convention.hiddenRegister) := by
  obtain ⟨pushed, writes, pushes, top, wrote, below⟩ := wrote_pushes savedRegisters machine
  let pointed := pushed.setRegister .rbp (pushed.registers .rsp)
  have points : executeAll [.mov .quad (.full .rsp) (.full .rbp)] pushed = some pointed := by
    rw [executeAll_singleton, execute, Machine.read_full]
    exact Machine.write_full pushed .rbp _
  obtain ⟨lowered, reserves, foot, moved⟩ := wrote_reserve pointed lowering.frame.size
  have subset : [.rsp] ⊆ [Register.rsp, .rbp, .r15] := by decide
  have whole : machine.Wrote [.rsp, .rbp, .r15] writes lowered := by
    have both := ((wrote.mono subset).setRegister (by decide) _).trans (moved.mono subset)
    rwa [List.append_nil] at both
  have pointer : lowered.registers .rbp = offset (machine.registers .rsp) (-24) := by
    rw [moved.registers .rbp (by decide), Machine.registers_setRegister_self, top]
    rfl
  have bottom : lowered.registers .rsp =
      offset (lowered.registers .rbp) (-(lowering.frame.size : Int)) := by
    rw [foot, moved.registers .rbp (by decide), Machine.registers_setRegister_self,
      Machine.registers_setRegister_of_ne (by decide)]
  have front := executeAll_append_of (executeAll_append_of pushes points) reserves
  rw [prologue]
  by_cases memory : lowering.plan.result = some .memory
  · rw [if_pos memory]
    let kept := lowered.setRegister .r15 (lowered.registers lowering.convention.hiddenRegister)
    have keeps : executeAll [.mov .quad (.full lowering.convention.hiddenRegister)
        (.full resultPointer)] lowered = some kept := by
      rw [executeAll_singleton, execute, Machine.read_full]
      exact Machine.write_full lowered .r15 _
    refine ⟨kept, writes, executeAll_append_of front keeps, ?_, ?_,
      whole.setRegister (by decide) _, below, fun _ => ?_⟩
    · rw [Machine.registers_setRegister_of_ne (by decide), pointer]
    · rw [Machine.registers_setRegister_of_ne (by decide), bottom,
        Machine.registers_setRegister_of_ne (by decide)]
    · rw [Machine.registers_setRegister_self]
      refine whole.registers _ ?_
      cases lowering.convention <;> decide
  · rw [if_neg memory, List.append_nil]
    exact ⟨lowered, writes, front, pointer, bottom, whole, below, fun other => absurd other memory⟩

/-- What moving a parameter writes: the bytes of its argument, into its home slot. -/
def saving (lowering : Lowering) (base : BitVec 64) (content : ValueId → List UInt8)
    (entry : ValueId × ArgumentPlan) : Write :=
  ⟨offset base ((lowering.frame.slot? entry.1).getD 0), content entry.1⟩

theorem Placed.saving_eq (placed : lowering.Placed parameter start size) (base : BitVec 64)
    (content : ValueId → List UInt8) (plan : ArgumentPlan) :
    lowering.saving base content (parameter, plan) = ⟨offset base start, content parameter⟩ := by
  rw [saving, placed.slot]
  rfl

/-- Neither an entry nor a move of a parameter uses a register that carries arguments. -/
theorem not_mem_of_argumentRegisters {convention : Convention} {scratch : List Register}
    (member : register ∈ convention.argumentRegisters)
    (subset : scratch ⊆ [.rax, .r11, .rsp, .rbp, .r15]) : register ∉ scratch := by
  have apart : ∀ register ∈ convention.argumentRegisters,
      register ∉ [Register.rax, .r11, .rsp, .rbp, .r15] := by
    cases convention <;> decide +kernel
  exact fun inside => apart register member (subset inside)

/-- The parameters of a function and the places that its plan has for them. -/
def incomingArguments (lowering : Lowering) : List (ValueId × ArgumentPlan) :=
  (lowering.subject.parametersOf lowering.function).zip lowering.plan.arguments

variable {held : Function} {content : ValueId → List UInt8}

section Entry

variable (prepared : lowering.Prepared)
variable (found : lowering.subject.function? lowering.function = some held)

include prepared found

theorem Prepared.distinct : lowering.convention.Distinct held.signature.parameters lowering.plan :=
  Convention.distinct_of_plan (prepared.planned held found)

/-- Every parameter has a place. -/
theorem Prepared.map_incomingArguments : lowering.incomingArguments.map Prod.fst =
    lowering.subject.parametersOf lowering.function := by
  refine List.map_fst_zip ?_
  rw [prepared.accepted.built.linked.length_parametersOf found, (prepared.distinct found).length]

theorem Prepared.exists_placed_of_incoming :
    ∀ entry ∈ lowering.incomingArguments, ∃ start,
      lowering.Placed entry.1 start (Frame.bytesOf lowering.subject entry.1) := by
  intro entry member
  have parameter : entry.1 ∈ lowering.subject.parametersOf lowering.function := by
    rw [← prepared.map_incomingArguments found]
    exact List.mem_map_of_mem member
  obtain ⟨start, size, placed⟩ := prepared.exists_placed (Prepared.home_of_parameter parameter)
  obtain rfl : Frame.bytesOf lowering.subject entry.1 = size := Ty.bytes_eq placed.sized
  exact ⟨start, placed⟩

/-- **All parameters are moved into their home slots.** -/
theorem Prepared.wrote_saveParameters
    (arrive : ∀ entry ∈ lowering.incomingArguments,
      entry.2.Delivers (offset (machine.registers .rbp) 32) limit machine (content entry.1))
    (lengths : ∀ entry ∈ lowering.incomingArguments,
      (content entry.1).length = Frame.bytesOf lowering.subject entry.1)
    (fits : 32 + limit + lowering.frame.size ≤ 0x10000000000000000)
    (code : lowering.saveParameters = .ok lines) :
    ∃ next, executeAll lines machine = some next ∧ machine.Wrote [.rax, .r11]
      (lowering.incomingArguments.map (lowering.saving (machine.registers .rbp) content)) next := by
  have placed := prepared.exists_placed_of_incoming found
  obtain ⟨parts, codes, code⟩ := ok_of_bind code
  obtain rfl := Except.ok.inj code
  rw [List.map_eq_flatMap]
  refine Machine.Wrote.of_each (forall₂_of_mapM codes) _ ?_
  intro entry member lines part earlier between among wrote
  rw [← List.map_eq_flatMap] at among
  obtain ⟨start, slot⟩ := placed entry member
  have pointer := wrote.registers .rbp (by decide)
  -- what has been saved so far is below the argument area
  have delivers : entry.2.Delivers (offset (between.registers .rbp) 32) limit between
      (content entry.1) := by
    rw [pointer]
    refine (arrive entry member).of_same (fun register inside => ?_) fun start count inside => ?_
    · have known := (prepared.distinct found).registers _ (List.of_mem_zip member).2 inside
      exact wrote.registers register (not_mem_of_argumentRegisters known (by decide))
    · refine wrote.bytes_eq fun write listed => ?_
      obtain ⟨other, listed', rfl⟩ := List.mem_map.mp (among listed)
      obtain ⟨start', slot'⟩ := placed other listed'
      have above : (32 : Int) + start = (32 + start : Nat) := by omega
      rw [slot'.saving_eq, offset_offset, above]
      exact (slot'.below prepared (lengths other listed') _).misses (by omega)
  have written := wrote_saveParameter prepared slot delivers (lengths entry member) fits part
  rw [pointer] at written
  rw [slot.saving_eq]
  exact written

/-- **The slots of all parameters have what has been saved.** -/
theorem Prepared.bytes_of_saving {base : BitVec 64} {next : Machine}
    (lengths : ∀ entry ∈ lowering.incomingArguments,
      (content entry.1).length = Frame.bytesOf lowering.subject entry.1)
    (fits : lowering.frame.size ≤ 0x10000000000000000)
    (memory : next.memory = machine.memory.writeAll
      (lowering.incomingArguments.map (lowering.saving base content))) :
    ∀ parameter ∈ lowering.subject.parametersOf lowering.function, ∃ start size,
      lowering.Placed parameter start size ∧
      next.memory.bytes (offset base start) size = content parameter := by
  have placed := prepared.exists_placed_of_incoming found
  have distinct := prepared.accepted.built.linked.nodup_parametersOf lowering.function
  rw [← prepared.map_incomingArguments found] at distinct ⊢
  have apart : (lowering.incomingArguments.map (lowering.saving base content)).Pairwise
      fun first second => Apart first.address first.content.length second.address
        second.content.length := by
    refine List.pairwise_map.mpr ((List.pairwise_map.mp distinct).imp_of_mem ?_)
    intro first second one two different
    obtain ⟨start, slot⟩ := placed first one
    obtain ⟨start', slot'⟩ := placed second two
    rw [slot.saving_eq, slot'.saving_eq]
    dsimp only
    rw [lengths first one, lengths second two]
    exact slot.apart prepared slot' different fits base
  intro parameter member
  obtain ⟨entry, listed, rfl⟩ := List.mem_map.mp member
  obtain ⟨start, slot⟩ := placed entry listed
  refine ⟨start, _, slot, ?_⟩
  have back := Memory.bytes_writeAll machine.memory (List.mem_map_of_mem listed) apart
  rw [slot.saving_eq] at back
  rw [memory, ← lengths entry listed]
  refine back ?_
  dsimp only
  rw [lengths entry listed]
  exact Nat.le_trans (slot.le_size prepared) fits

/-- **A function that has been called finds its arguments in the home slots of its parameters**, and
the address for a result in memory in `%r15`. -/
theorem Prepared.executeAll_received
    (arrive : ∀ entry ∈ lowering.incomingArguments,
      entry.2.Delivers (offset (machine.registers .rsp) 8) limit machine (content entry.1))
    (lengths : ∀ entry ∈ lowering.incomingArguments,
      (content entry.1).length = Frame.bytesOf lowering.subject entry.1)
    (fits : 32 + limit + lowering.frame.size ≤ 0x10000000000000000)
    (code : lowering.saveParameters = .ok lines) :
    ∃ next, executeAll (lowering.prologue ++ lines) machine = some next ∧
      next.registers .rsp = offset (next.registers .rbp) (-(lowering.frame.size : Int)) ∧
      (∀ parameter ∈ lowering.subject.parametersOf lowering.function, ∃ start size,
        lowering.Placed parameter start size ∧
        next.memory.bytes (offset (next.registers .rbp) start) size = content parameter) ∧
      (lowering.plan.result = some .memory →
        next.registers .r15 = machine.registers lowering.convention.hiddenRegister) := by
  obtain ⟨entered, writes, ran, pointer, foot, wrote, below, hidden⟩ :=
    wrote_prologue lowering machine
  have area : offset (entered.registers .rbp) 32 = offset (machine.registers .rsp) 8 := by
    rw [pointer, offset_offset]
    rfl
  have arrive' : ∀ entry ∈ lowering.incomingArguments,
      entry.2.Delivers (offset (entered.registers .rbp) 32) limit entered (content entry.1) := by
    intro entry member
    rw [area]
    refine (arrive entry member).of_same (fun register inside => ?_) fun start count inside => ?_
    · have known := (prepared.distinct found).registers _ (List.of_mem_zip member).2 inside
      exact wrote.registers register (not_mem_of_argumentRegisters known (by decide))
    · refine wrote.bytes_eq fun write listed => ?_
      have above : (8 : Int) + start = (8 + start : Nat) := by omega
      rw [offset_offset, above]
      exact (below write listed).misses (by omega)
  obtain ⟨next, ran', wrote'⟩ := prepared.wrote_saveParameters found arrive' lengths fits code
  have pointer' := wrote'.registers .rbp (by decide)
  refine ⟨next, executeAll_append_of ran ran', ?_, ?_, fun memory => ?_⟩
  · rw [wrote'.registers .rsp (by decide), foot, pointer']
  · rw [pointer']
    exact prepared.bytes_of_saving found lengths (by omega) wrote'.memory
  · rw [wrote'.registers .r15 (by decide), hidden memory]

end Entry

end Lowering

end SsaAmd64
