/-
**A caller puts arguments where its plan says.**

What goes to memory is written first, each argument into bytes of its own. Then registers are loaded,
each of them once, so what has been loaded stays until the call.

* `ArgumentPlan.parts`: what an argument puts into the argument area;
* `ArgumentPlan.Loads`: what it puts into a register;
* `Lowering.Prepared.executeAll_placement`: the code of a call delivers all arguments.
-/

import SsaAmd64.Proofs.Lowering.Delivery

namespace SsaAmd64

open Asm

/-! ### Images -/

namespace Bytes

theorem take_ofNat {count size : Nat} (value : Nat) (less : size ≤ count) :
    (ofNat count value).take size = ofNat size value := by
  induction size generalizing count value with
  | zero => rw [List.take_zero, ofNat]
  | succ size ih =>
    obtain ⟨count, rfl⟩ := Nat.exists_eq_add_of_le' less
    rw [show count + (size + 1) = (count + size) + 1 by omega, ofNat, List.take_succ_cons, ofNat,
      ih _ (Nat.le_add_left _ _)]

theorem take_resize {count size : Nat} (content : List UInt8) (less : size ≤ count) :
    (resize count content).take size = resize size content := by
  rw [resize, resize, List.take_append, List.take_take, List.take_replicate, List.length_take]
  congr 2 <;> omega

/-- Of the number of some bytes, the low bytes are the first. -/
theorem ofNat_toNat_take {size : Nat} (bytes : List UInt8) (less : size ≤ bytes.length) :
    ofNat size (toNat bytes) = bytes.take size := by
  rw [← take_ofNat _ less, ofNat_toNat]

end Bytes

/-- A literal of fewer bytes has the first of them. -/
theorem Literal.take_image {count size : Nat} (literal : Literal) (less : size ≤ count) :
    (literal.image count).take size = literal.image size := by
  cases literal with
  | int => exact Bytes.take_ofNat _ less
  | float => exact Bytes.take_ofNat _ less
  | bytes => exact Bytes.take_resize _ less

namespace ArgumentPlan

/-- **What an argument puts into the argument area**: itself, or its copy, or both its copy and the
address of it. -/
def parts (plan : ArgumentPlan) (area : BitVec 64) (bytes : List UInt8) :
    List (Nat × List UInt8) :=
  match plan.copy, plan.place with
  | some copy, .stack start => [(copy, bytes), (start, Bytes.ofNat 8 (offset area copy).toNat)]
  | some copy, _ => [(copy, bytes)]
  | none, .stack start => [(start, bytes)]
  | none, _ => []

/-- **What an argument puts into a register**: itself, or the address of its copy. -/
def Loads (plan : ArgumentPlan) (area : BitVec 64) (machine : Machine) (bytes : List UInt8) :
    Prop :=
  match plan.copy, plan.place with
  | some copy, .general register => machine.registers register = offset area copy
  | none, .general register | none, .vector register _ =>
    Bytes.ofNat bytes.length (machine.registers register).toNat = bytes
  | _, _ => True

variable {plan : ArgumentPlan} {area : BitVec 64} {limit : Nat} {machine next : Machine}
variable {bytes : List UInt8}

/-- The parts of an argument take up its ranges. -/
theorem map_parts (plan : ArgumentPlan) (area : BitVec 64) (bytes : List UInt8) :
    (plan.parts area bytes).map (fun part => (part.1, part.2.length)) =
      plan.ranges bytes.length := by
  obtain ⟨_, _ | _ | _, _ | _⟩ := plan <;> simp [parts, ranges]

theorem Loads.of_same (loads : plan.Loads area machine bytes)
    (kept : ∀ register ∈ plan.registers, next.registers register = machine.registers register) :
    plan.Loads area next bytes := by
  obtain ⟨_, register | ⟨register, companion⟩ | start, _ | copy⟩ := plan
  case general.none | general.some =>
    simp only [Loads] at loads ⊢
    rwa [kept register List.mem_cons_self]
  case vector.none =>
    simp only [Loads] at loads ⊢
    rwa [kept register List.mem_cons_self]
  all_goals trivial

/-- **An argument is delivered by its parts in the argument area and in a register.** -/
theorem delivers_of_parts (loads : plan.Loads area machine bytes)
    (written : ∀ part ∈ plan.parts area bytes, part.1 + part.2.length ≤ limit ∧
      machine.memory.bytes (offset area part.1) part.2.length = part.2)
    (direct : plan.copy.isSome = true → plan.inVector = false) :
    plan.Delivers area limit machine bytes := by
  obtain ⟨passing, register | ⟨register, companion⟩ | start, _ | copy⟩ := plan
  case general.none => exact .general loads
  case general.some =>
    obtain ⟨inside, held⟩ := written _ List.mem_cons_self
    exact .copyInRegister inside loads held
  case vector.none => exact .vector loads
  case vector.some => cases direct rfl
  case stack.none =>
    obtain ⟨inside, held⟩ := written _ List.mem_cons_self
    exact .stack inside held
  case stack.some =>
    obtain ⟨inside, held⟩ := written _ List.mem_cons_self
    obtain ⟨room, points⟩ := written _ (List.mem_cons_of_mem _ List.mem_cons_self)
    dsimp only at room points
    rw [Bytes.length_ofNat] at room points
    exact .copyOnStack inside room points held

end ArgumentPlan

namespace Lowering

variable {lowering : Lowering} {machine : Machine} {argument : ValueId} {plan : ArgumentPlan}
variable {lines : List Line} {reserved : Nat} {register : Register} {bottom : BitVec 64}
variable {next : Machine} {bytes : List UInt8}

/-- **A value that is passed**: it is read from somewhere, and its type has a size. -/
structure Passed (lowering : Lowering) (argument : ValueId) (source : Source) (size : Nat) :
    Prop where
  known : lowering.source argument = .ok source
  reads : lowering.Reads argument source
  sized : (lowering.subject.typeOf argument).size = .ok size

/-- A value that is passed, and its bytes. -/
def Offers (lowering : Lowering) (machine : Machine) (argument : ValueId) (bytes : List UInt8) :
    Prop :=
  ∃ source, lowering.Passed argument source bytes.length ∧ source.bytes machine bytes.length = bytes

/-- Values stay as they are while their slots do. -/
theorem Offers.of_wrote {scratch : List Register} {writes : List Write}
    (offers : lowering.Offers machine argument bytes) (wrote : machine.Wrote scratch writes next)
    (kept : .rbp ∉ scratch)
    (missed : ∀ start, lowering.Placed argument start bytes.length →
      ∀ write ∈ writes, write.Misses (offset (machine.registers .rbp) start) bytes.length) :
    lowering.Offers next argument bytes := by
  obtain ⟨source, passed, held⟩ := offers
  exact ⟨source, passed, (passed.reads.bytes_eq passed.sized wrote kept missed).trans held⟩

/-! ### Memory -/

/-- The writes of an argument. -/
def writesOf (bottom : BitVec 64) (parts : List (Nat × List UInt8)) : List Write :=
  parts.map fun part => ⟨offset bottom part.1, part.2⟩

theorem Offers.wrote_copyTo (offers : lowering.Offers machine argument bytes)
    (prepared : lowering.Prepared)
    (area : lowering.Area (machine.registers .rbp) bottom reserved reserved)
    (foot : machine.registers .rsp = bottom) {position : Nat}
    (inside : position + bytes.length ≤ reserved)
    (code : lowering.copyTo argument .rsp (signed64 position) bytes.length = .ok lines) :
    ∃ next, executeAll lines machine = some next ∧
      machine.Wrote [.rax] (writesOf bottom [(position, bytes)]) next := by
  obtain ⟨source, passed, held⟩ := offers
  have place : offset (machine.registers .rsp) (signed64 position) = offset bottom position := by
    rw [foot, offset_signed64]
  obtain ⟨next, ran, wrote⟩ := Lowering.wrote_copyTo passed.known code (by decide)
    (passed.reads.copies passed.sized fun start placed => by
      rw [place]
      exact area.apart prepared placed inside)
  rw [place, held] at wrote
  exact ⟨next, ran, wrote⟩

/-- **An argument is written into the argument area.** -/
theorem Offers.wrote_placeInMemory (offers : lowering.Offers machine argument bytes)
    (prepared : lowering.Prepared)
    (area : lowering.Area (machine.registers .rbp) bottom reserved reserved)
    (foot : machine.registers .rsp = bottom)
    (inside : ∀ range ∈ plan.ranges bytes.length, range.1 + range.2 ≤ reserved)
    (code : lowering.placeInMemory argument plan = .ok lines) :
    ∃ next, executeAll lines machine = some next ∧
      machine.Wrote [.rax] (writesOf bottom (plan.parts bottom bytes)) next := by
  have known : lowering.sizeOf argument = .ok bytes.length := by
    obtain ⟨source, passed, _⟩ := offers
    rw [Lowering.sizeOf, Ty.sizeInCode, passed.sized]
    rfl
  rw [placeInMemory, known] at code
  obtain ⟨_, known, code⟩ := ok_of_bind code
  cases known
  obtain ⟨passing, general | vector | start, _ | copy⟩ := plan
  case general.none | vector.none =>
    obtain rfl := Except.ok.inj code
    exact ⟨machine, rfl, .refl _ _⟩
  case general.some | vector.some =>
    exact offers.wrote_copyTo prepared area foot (inside _ List.mem_cons_self) code
  case stack.none =>
    exact offers.wrote_copyTo prepared area foot (inside _ List.mem_cons_self) code
  case stack.some =>
    obtain ⟨copies, code', code⟩ := ok_of_bind code
    obtain rfl := Except.ok.inj code
    obtain ⟨copied, ran, wrote⟩ :=
      offers.wrote_copyTo prepared area foot (inside _ List.mem_cons_self) code'
    have foot' : copied.registers .rsp = bottom := (wrote.registers .rsp (by decide)).trans foot
    have address : copied.address? (.memory .rsp (signed64 copy)) = some (offset bottom copy) := by
      rw [Machine.address?, foot', offset_signed64]
    obtain ⟨loaded, loads, value, kept⟩ := wrote_lea copied address .rax
    obtain ⟨next, stores, wrote'⟩ := wrote_store loaded .rax .rsp (signed64 start)
    rw [value, kept.registers .rsp (by decide), foot', offset_signed64] at wrote'
    refine ⟨next, executeAll_append_of ran (executeAll_append_of loads stores), ?_⟩
    exact (wrote.trans kept).trans (wrote'.mono (List.nil_subset _))

/-! ### Registers -/

/-- **A value of at most eight bytes is loaded into a register.** -/
theorem Offers.wrote_loadInt (offers : lowering.Offers machine argument bytes)
    (code : lowering.loadInt argument register false = .ok lines) :
    ∃ next, executeAll lines machine = some next ∧
      Bytes.ofNat bytes.length (next.registers register).toNat = bytes ∧
      machine.Wrote [register] [] next := by
  obtain ⟨source, passed, held⟩ := offers
  rw [loadInt, passed.known] at code
  obtain ⟨_, same, code⟩ := ok_of_bind code
  cases same
  cases source with
  | symbol name =>
    obtain rfl := Except.ok.inj code
    obtain ⟨next, ran, value, wrote⟩ := wrote_lea machine
      (show machine.address? (.relative name) = some (machine.symbols name) from rfl) register
    refine ⟨next, ran, ?_, wrote⟩
    rw [value]
    exact held
  | literal literal =>
    obtain ⟨width, known, code⟩ := ok_of_bind code
    obtain rfl := Except.ok.inj code
    have size : bytes.length = width.bytes :=
      Except.ok.inj (passed.sized.symm.trans (size_of_registerWidth known))
    have short : bytes.length ≤ 8 := by
      rw [size]
      cases width <;> decide
    have word : (BitVec.ofInt 64 (literalWord literal
        (bitsOf (lowering.subject.typeOf argument) width) false)).toNat =
          Bytes.toNat (literal.image 8) := by
      have bound := Machine.toNat_bytes_lt (literal.image 8)
      rw [Literal.length_image] at bound
      rw [literalWord, if_neg fun all => Bool.false_ne_true all.1, ofInt_signed64]
      exact Nat.mod_eq_of_lt bound
    refine ⟨_, (executeAll_singleton _ _).trans (execute_loadImmediate _ _ _), ?_,
      (Machine.Wrote.refl _ machine).setRegister List.mem_cons_self _⟩
    rw [Machine.registers_setRegister_self, word,
      Bytes.ofNat_toNat_take _ (by rwa [Literal.length_image]), Literal.take_image _ short]
    exact held
  | slot start =>
    obtain ⟨width, known, code⟩ := ok_of_bind code
    obtain rfl := Except.ok.inj code
    have size : bytes.length = width.bytes :=
      Except.ok.inj (passed.sized.symm.trans (size_of_registerWidth known))
    have loaded : machine.memory.bytes (offset (machine.registers .rbp) start) width.bytes =
        bytes := size ▸ held
    have bound := Machine.toNat_bytes_lt bytes
    refine ⟨_, executeAll_singleton _ _, ?_,
      (Machine.Wrote.refl _ machine).setRegister List.mem_cons_self _⟩
    rw [Machine.registers_setRegister_self]
    show Bytes.ofNat bytes.length (((BitVec.ofNat width.bits (Bytes.toNat (machine.memory.bytes
      (offset (machine.registers .rbp) start) width.bytes))).setWidth 64).toNat) = bytes
    have narrow : 2 ^ width.bits ≤ 2 ^ 64 := by cases width <;> decide
    have small : Bytes.toNat bytes < 2 ^ width.bits := by rwa [size] at bound
    rw [loaded, BitVec.toNat_setWidth, BitVec.toNat_ofNat, Nat.mod_eq_of_lt small,
      Nat.mod_eq_of_lt (Nat.lt_of_lt_of_le small narrow), Bytes.ofNat_toNat]

/-- **An argument is loaded into its registers**, or the address of its copy. -/
theorem Offers.wrote_placeInRegister (offers : lowering.Offers machine argument bytes)
    (foot : machine.registers .rsp = bottom)
    (code : lowering.placeInRegister argument plan = .ok lines) :
    ∃ next, executeAll lines machine = some next ∧ plan.Loads bottom next bytes ∧
      machine.Wrote (.rax :: plan.registers) [] next := by
  obtain ⟨passing, register | ⟨register, companion⟩ | start, _ | copy⟩ := plan
  case general.none =>
    obtain ⟨next, ran, value, wrote⟩ := offers.wrote_loadInt code
    exact ⟨next, ran, value, wrote.mono (List.subset_cons_self _ _)⟩
  case general.some =>
    obtain rfl := Except.ok.inj code
    have address : machine.address? (.memory .rsp (signed64 copy)) = some (offset bottom copy) := by
      rw [Machine.address?, foot, offset_signed64]
    obtain ⟨next, ran, value, wrote⟩ := wrote_lea machine address register
    exact ⟨next, ran, value, wrote.mono (List.subset_cons_self _ _)⟩
  case vector.none =>
    obtain ⟨load, loads, code⟩ := ok_of_bind code
    obtain rfl := Except.ok.inj code
    obtain ⟨loaded, ran, value, wrote⟩ := offers.wrote_loadInt loads
    obtain ⟨moved, moves, value', wrote'⟩ := wrote_load loaded (.full .rax) register
    rw [Machine.read_full] at value'
    have both : machine.Wrote [.rax, register] [] moved :=
      (wrote.mono (by simp)).trans (wrote'.mono (by simp))
    have source : moved.registers .rax = loaded.registers .rax := by
      by_cases same : register = .rax
      · rw [same] at value'
        exact value'
      · exact wrote'.registers .rax fun member => same (List.mem_singleton.mp member).symm
    cases companion with
    | none =>
      refine ⟨moved, executeAll_append_of ran moves, ?_, both⟩
      show Bytes.ofNat _ (moved.registers register).toNat = _
      rw [value', value]
    | some other =>
      obtain ⟨next, moves', value'', wrote''⟩ := wrote_load moved (.full .rax) other
      rw [Machine.read_full, source] at value''
      have held : next.registers register = loaded.registers .rax := by
        by_cases same : register = other
        · rw [same, value'']
        · rw [wrote''.registers register fun member => same (List.mem_singleton.mp member), value']
      refine ⟨next, executeAll_append_of ran (executeAll_append_of moves moves'), ?_,
        (both.mono ?_).trans (wrote''.mono ?_)⟩
      · show Bytes.ofNat _ (next.registers register).toNat = _
        rw [held, value]
      all_goals simp [ArgumentPlan.registers, Place.registers]
  all_goals
    obtain rfl := Except.ok.inj code
    exact ⟨machine, rfl, trivial, .refl _ _⟩

/-! ### All arguments -/

variable {entries : List (ValueId × ArgumentPlan)} {parts : List (List Line)}
variable {content : ValueId → List UInt8}

/-- What is written for arguments is below the frame. -/
theorem Area.misses (area : lowering.Area (machine.registers .rbp) bottom reserved reserved)
    (prepared : lowering.Prepared)
    (inside : ∀ entry ∈ entries, ∀ range ∈ entry.2.ranges (content entry.1).length,
      range.1 + range.2 ≤ reserved) {size : Nat} {start : Int}
    (placed : lowering.Placed argument start size) :
    ∀ write ∈ entries.flatMap fun entry => writesOf bottom (entry.2.parts bottom (content entry.1)),
      write.Misses (offset (machine.registers .rbp) start) size := by
  intro write listed
  obtain ⟨entry, member, own⟩ := List.mem_flatMap.mp listed
  obtain ⟨part, within, rfl⟩ := List.mem_map.mp own
  refine area.apart prepared placed (inside entry member (part.1, part.2.length) ?_)
  rw [← ArgumentPlan.map_parts _ bottom]
  exact List.mem_map_of_mem within

/-- **All arguments that go to memory are written.** -/
theorem wrote_placeAllInMemory (prepared : lowering.Prepared)
    (offers : ∀ entry ∈ entries, lowering.Offers machine entry.1 (content entry.1))
    (area : lowering.Area (machine.registers .rbp) bottom reserved reserved)
    (foot : machine.registers .rsp = bottom)
    (inside : ∀ entry ∈ entries, ∀ range ∈ entry.2.ranges (content entry.1).length,
      range.1 + range.2 ≤ reserved)
    (codes : List.Forall₂ (fun entry lines =>
      lowering.placeInMemory entry.1 entry.2 = .ok lines) entries parts) :
    ∃ next, executeAll parts.flatten machine = some next ∧ machine.Wrote [.rax]
      (entries.flatMap fun entry => writesOf bottom (entry.2.parts bottom (content entry.1))) next := by
  refine Machine.Wrote.of_each codes _ ?_
  intro entry member lines code earlier between among wrote
  have offers' : lowering.Offers between entry.1 (content entry.1) :=
    (offers entry member).of_wrote wrote (by decide) fun start placed write listed =>
      area.misses prepared inside placed write (among listed)
  have pointer := wrote.registers .rbp (by decide)
  exact offers'.wrote_placeInMemory prepared (pointer ▸ area)
    ((wrote.registers .rsp (by decide)).trans foot) (inside entry member) code

/-- **All arguments that go to registers are loaded**, and stay there while others are. -/
theorem wrote_placeAllInRegisters
    (offers : ∀ entry ∈ entries, lowering.Offers machine entry.1 (content entry.1))
    (foot : machine.registers .rsp = bottom)
    (known : ∀ entry ∈ entries, entry.2.registers ⊆ lowering.convention.argumentRegisters)
    (fresh : entries.Pairwise fun first second =>
      first.2.registers.Disjoint second.2.registers)
    (codes : List.Forall₂ (fun entry lines =>
      lowering.placeInRegister entry.1 entry.2 = .ok lines) entries parts) :
    ∃ next, executeAll parts.flatten machine = some next ∧
      machine.Wrote (.rax :: entries.flatMap fun entry => entry.2.registers) [] next ∧
      ∀ entry ∈ entries, entry.2.Loads bottom next (content entry.1) := by
  induction entries generalizing machine parts with
  | nil =>
    cases codes
    exact ⟨machine, rfl, .refl _ _, List.forall_mem_nil _⟩
  | cons entry entries ih =>
    cases codes with | cons code codes => ?_
    obtain ⟨offer, offers⟩ := List.forall_mem_cons.mp offers
    obtain ⟨argument, known⟩ := List.forall_mem_cons.mp known
    obtain ⟨apart, fresh⟩ := List.pairwise_cons.mp fresh
    obtain ⟨between, ran, loads, wrote⟩ := offer.wrote_placeInRegister foot code
    have kept : ∀ register ∈ [Register.rbp, .rsp], register ∉ .rax :: entry.2.registers := by
      intro register member inside
      rcases List.mem_cons.mp inside with rfl | inside
      · exact absurd member (by decide)
      · exact not_mem_of_argumentRegisters (argument inside) (by decide) member
    obtain ⟨next, ran', wrote', loads'⟩ := ih
      (fun other member => (offers other member).of_wrote wrote (kept _ (by simp))
        fun _ _ _ none => absurd none List.not_mem_nil)
      ((wrote.registers .rsp (kept _ (by simp))).trans foot) known fresh codes
    refine ⟨next, executeAll_append_of ran ran', ?_, List.forall_mem_cons.mpr ⟨?_, loads'⟩⟩
    · exact (wrote.mono (by simp)).trans (wrote'.mono (by simp))
    · refine loads.of_same fun register member => wrote'.registers register fun inside => ?_
      rcases List.mem_cons.mp inside with rfl | inside
      · exact not_mem_of_argumentRegisters (argument member)
          (show [Register.rax] ⊆ _ by decide) List.mem_cons_self
      · obtain ⟨other, listed, inside⟩ := List.mem_flatMap.mp inside
        exact apart other listed member inside

/-! ### Placement -/

section Placement

variable {arguments : List ValueId} {result : Ty} {plan : CallPlan}
variable {toMemory toRegisters : List (List Line)}

/-- The bytes that arguments take up are those of their types. -/
theorem occupied_arguments
    (lengths : ∀ argument ∈ arguments,
      (content argument).length = (lowering.subject.typeOf argument).bytes)
    (plans : List ArgumentPlan) :
    occupied (arguments.map lowering.subject.typeOf) plans =
      (arguments.zip plans).flatMap fun entry => entry.2.ranges (content entry.1).length := by
  rw [occupied, List.zip_map_left, List.flatMap_map]
  refine List.flatMap_congr fun entry member => ?_
  rw [lengths _ (List.of_mem_zip member).1]
  rfl

/-- **The bytes that arguments are written into are read back**, as no two of them meet. -/
theorem bytes_of_parts (separate : (entries.flatMap fun entry =>
      entry.2.ranges (content entry.1).length).Pairwise Separate)
    (inside : ∀ entry ∈ entries, ∀ range ∈ entry.2.ranges (content entry.1).length,
      range.1 + range.2 ≤ reserved) (fits : reserved ≤ 0x10000000000000000)
    (memory : next.memory = machine.memory.writeAll (entries.flatMap fun entry =>
      writesOf bottom (entry.2.parts bottom (content entry.1)))) :
    ∀ entry ∈ entries, ∀ part ∈ entry.2.parts bottom (content entry.1),
      part.1 + part.2.length ≤ reserved ∧
        next.memory.bytes (offset bottom part.1) part.2.length = part.2 := by
  let all := entries.flatMap fun entry => entry.2.parts bottom (content entry.1)
  have ranges : all.map (fun part => (part.1, part.2.length)) =
      entries.flatMap fun entry => entry.2.ranges (content entry.1).length := by
    rw [List.map_flatMap]
    exact List.flatMap_congr fun entry _ => ArgumentPlan.map_parts _ _ _
  have written : next.memory =
      machine.memory.writeAll (all.map fun part => ⟨offset bottom part.1, part.2⟩) := by
    rw [memory, List.map_flatMap]
    rfl
  have within : ∀ part ∈ all, part.1 + part.2.length ≤ reserved := by
    intro part member
    obtain ⟨entry, listed, own⟩ := List.mem_flatMap.mp member
    refine inside entry listed (part.1, part.2.length) ?_
    rw [← ArgumentPlan.map_parts _ bottom]
    exact List.mem_map_of_mem own
  rw [← ranges] at separate
  have apart : (all.map fun part => Write.mk (offset bottom part.1) part.2).Pairwise
      fun first second => Apart first.address first.content.length second.address
        second.content.length := by
    refine List.pairwise_map.mpr ((List.pairwise_map.mp separate).imp_of_mem ?_)
    intro first second one two separate
    have low := within first one
    have low' := within second two
    dsimp only
    rcases separate with before | after
    · dsimp only at before
      exact apart_of_le (by omega) (by omega)
    · dsimp only at after
      exact (apart_of_le (by omega) (by omega)).symm
  intro entry listed part own
  have member : part ∈ all := List.mem_flatMap.mpr ⟨entry, listed, own⟩
  have low := within part member
  refine ⟨low, ?_⟩
  rw [written]
  exact Memory.bytes_writeAll machine.memory (List.mem_map_of_mem member) apart
    (show part.2.length ≤ _ by omega)

/-- **The code of a call puts all arguments where the plan says**, in an area below the frame. -/
theorem Prepared.executeAll_placement (prepared : lowering.Prepared)
    (planned : lowering.convention.plan (arguments.map lowering.subject.typeOf) result = .ok plan)
    (offers : ∀ argument ∈ arguments, lowering.Offers machine argument (content argument))
    (frame : lowering.AtFrame machine plan.stackSize)
    (inMemory : (arguments.zip plan.arguments).mapM (fun entry =>
      lowering.placeInMemory entry.1 entry.2) = .ok toMemory)
    (inRegisters : (arguments.zip plan.arguments).mapM (fun entry =>
      lowering.placeInRegister entry.1 entry.2) = .ok toRegisters) :
    ∃ next, executeAll (adjustStack .sub plan.stackSize ++ toMemory.flatten ++ toRegisters.flatten)
        machine = some next ∧
      next.registers .rsp = offset (machine.registers .rsp) (-(plan.stackSize : Int)) ∧
      next.registers .rbp = machine.registers .rbp ∧
      ∀ entry ∈ arguments.zip plan.arguments,
        entry.2.Delivers (next.registers .rsp) plan.stackSize next (content entry.1) := by
  have distinct := Convention.distinct_of_plan planned
  have lengths : ∀ argument ∈ arguments,
      (content argument).length = (lowering.subject.typeOf argument).bytes := by
    intro argument member
    obtain ⟨source, passed, _⟩ := offers argument member
    exact (Ty.bytes_eq passed.sized).symm
  have occupied := occupied_arguments lengths plan.arguments
  have inside : ∀ entry ∈ arguments.zip plan.arguments,
      ∀ range ∈ entry.2.ranges (content entry.1).length,
        range.1 + range.2 ≤ plan.stackSize := by
    intro entry member range own
    refine distinct.inside range ?_
    rw [occupied]
    exact List.mem_flatMap.mpr ⟨entry, member, own⟩
  have fits := frame.fits
  -- the area is reserved
  obtain ⟨lowered, reserves, foot, moved⟩ := wrote_reserve machine plan.stackSize
  have area : lowering.Area (lowered.registers .rbp) (lowered.registers .rsp) plan.stackSize
      plan.stackSize := by
    refine ⟨?_, Nat.le_refl _, frame.fits⟩
    rw [foot, moved.registers .rbp (by decide), frame.bottom, offset_offset]
    rfl
  have offers' : ∀ entry ∈ arguments.zip plan.arguments,
      lowering.Offers lowered entry.1 (content entry.1) := fun entry member =>
    (offers _ (List.of_mem_zip member).1).of_wrote moved (by decide)
      fun _ _ _ none => absurd none List.not_mem_nil
  -- memory is written
  obtain ⟨stored, stores, wrote⟩ := wrote_placeAllInMemory prepared offers' area rfl inside
    (forall₂_of_mapM inMemory)
  have offers'' : ∀ entry ∈ arguments.zip plan.arguments,
      lowering.Offers stored entry.1 (content entry.1) := fun entry member =>
    (offers' entry member).of_wrote wrote (by decide) fun start placed =>
      area.misses prepared inside placed
  -- registers are loaded
  have known : ∀ entry ∈ arguments.zip plan.arguments,
      entry.2.registers ⊆ lowering.convention.argumentRegisters := fun entry member =>
    distinct.registers _ (List.of_mem_zip member).2
  have seconds : (arguments.zip plan.arguments).map Prod.snd = plan.arguments := by
    refine List.map_snd_zip ?_
    rw [distinct.length, List.length_map]
  have fresh : (arguments.zip plan.arguments).Pairwise fun first second =>
      first.2.registers.Disjoint second.2.registers := by
    have fresh := distinct.fresh
    rwa [← seconds, List.pairwise_map] at fresh
  obtain ⟨next, loads, wrote', loaded⟩ := wrote_placeAllInRegisters offers''
    (wrote.registers .rsp (by decide)) known fresh (forall₂_of_mapM inRegisters)
  have kept : ∀ register ∈ [Register.rbp, .rsp],
      next.registers register = lowered.registers register := by
    intro register member
    refine (wrote'.registers register fun scratch => ?_).trans (wrote.registers register ?_)
    · rcases List.mem_cons.mp scratch with rfl | scratch
      · exact absurd member (by decide)
      · obtain ⟨entry, listed, own⟩ := List.mem_flatMap.mp scratch
        exact not_mem_of_argumentRegisters (known entry listed own) (by decide) member
    · revert member
      revert register
      decide
  have foot' := kept .rsp (by simp)
  refine ⟨next, executeAll_append_of (executeAll_append_of reserves stores) loads,
    foot'.trans foot, (kept .rbp (by simp)).trans (moved.registers .rbp (by decide)), ?_⟩
  intro entry member
  rw [foot']
  have separate := distinct.apart
  rw [occupied] at separate
  refine ArgumentPlan.delivers_of_parts (loaded entry member) ?_
    (distinct.direct _ (List.of_mem_zip member).2)
  exact bytes_of_parts separate inside (by omega) (wrote'.memory.trans wrote.memory) entry member

end Placement

end Lowering

end SsaAmd64
