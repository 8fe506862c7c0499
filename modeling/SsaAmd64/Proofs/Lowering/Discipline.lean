/-
**The stack discipline.**

The prologue saves three registers right below the return address and points `%rbp` at them. From
there on `%rbp` stays, and `%rsp` is below it by the size of the frame and of an area. An epilogue
goes back to `%rbp` and takes the registers from where they were saved. So `%rsp` is restored
whatever happens to memory, and the saved registers are unless the bytes that hold them are
overwritten. The function itself stores to home slots and areas, which are elsewhere; but a pointer
may point anywhere, and a called function may write anything.

* `Lowering.Stage.Holds`: what is known of the machine at a stage;
* `Lowering.Stands.move`, `Lowering.Stands.path`: it is known along all executions;
* `Lowering.Upright`: the stack pointer at labels, calls and returns;
* `Lowering.Roomy`, `Lowering.fair_shelter`: the function does not store to its saved registers;
* `Lowering.Stands.spared_of_execution`: they stay in memory along executions that spare them.
-/

import SsaAmd64.Proofs.Lowering.Incoming
import SsaAmd64.Proofs.Lowering.Stages

namespace SsaAmd64

namespace Asm

/-- A multiple of sixteen below an address that is eight bytes off another one. -/
theorem dvd_offset {address : BitVec 64} {count : Nat} (entered : address.toNat % 16 = 8)
    (multiple : 16 ∣ count) : 16 ∣ (offset (offset address (-24)) (-(count : Int))).toNat := by
  obtain ⟨factor, rfl⟩ := multiple
  rw [offset_offset, offset, BitVec.toNat_add, BitVec.toNat_ofInt]
  omega

theorem offset_eq_add (address : BitVec 64) (index : Nat) :
    offset address index = address + BitVec.ofNat 64 index := by
  rw [offset, BitVec.ofInt_natCast]

end Asm

namespace Lowering

open Asm

variable {lowering : Lowering} {rules : Nat → StoreRule} {names : List String}
variable {program body behind lines : List Line} {base : BitVec 64} {machine entry : Machine}
variable {running next : Running} {stage : Stage}

/-! ### The stack at a stage -/

/-- **What is known of the machine at a stage**, where `base` is the address of the registers that
the prologue has saved. -/
def Stage.Holds (lowering : Lowering) (base : BitVec 64) : Stage → Machine → Prop
  | .inside area, machine => machine.registers .rbp = base ∧
    machine.registers .rsp = offset base (-(lowering.frame.size + area : Nat))
  | .leaving restored, machine => machine.registers .rsp = offset base (8 * restored : Nat) ∧
    ∀ index register, savedRegisters.reverse[index]? = some register → index < restored →
      machine.registers register =
        BitVec.ofNat 64 (machine.load (offset base (8 * index : Nat)) 8)
  | .past, _ => False

/-- **Jumps to some labels meet orderly code**, which is part of some lines with other code behind
them. -/
def Lands (lowering : Lowering) (rules : Nat → StoreRule) (program body behind : List Line)
    (names : List String) : Prop :=
  ∀ name ∈ names, ∃ lines, .label name :: lines <:+ body ∧
    goto name program = some (lines ++ behind) ∧ lowering.Orderly rules names (.inside 0) lines

theorem Orderly.lands {before : List Line}
    (orderly : lowering.Orderly rules (Asm.labels body) stage body)
    (distinct : (Asm.labels (before ++ (body ++ behind))).Nodup) :
    lowering.Lands rules (before ++ (body ++ behind)) body behind (Asm.labels body) := by
  intro name member
  obtain ⟨first, lines, rfl⟩ := List.append_of_mem (mem_labels_iff.mp member)
  have place : before ++ (first ++ .label name :: lines ++ behind) =
      before ++ first ++ .label name :: (lines ++ behind) := by
    simp only [List.append_assoc, List.cons_append]
  exact ⟨lines, List.suffix_append _ _, goto_of_nodup distinct place, orderly.of_label⟩

/-- **An execution has got to orderly code**, and the machine is as it should be there. -/
def Stands (lowering : Lowering) (rules : Nat → StoreRule) (names : List String)
    (behind : List Line) (base : BitVec 64) (running : Running) : Prop :=
  ∃ stage lines, running.1 = lines ++ behind ∧ lowering.Orderly rules names stage lines ∧
    stage.Holds lowering base running.2

/-- A machine in which the reserved registers are as before. -/
theorem Stage.Holds.keeps {area : Nat} {after : Machine}
    (holds : (Stage.inside area).Holds lowering base machine) (keeps : machine.Keeps after) :
    (Stage.inside area).Holds lowering base after :=
  ⟨(keeps .rbp rfl).trans holds.1, (keeps .rsp rfl).trans holds.2⟩

theorem executed_moveStack {operation : Arithmetic} {area : Nat} {after : Machine}
    (kind : operation = .sub ∨ operation = .add)
    (done : execute (moveStack operation area) machine = some after) :
    after.registers .rsp =
        offset (machine.registers .rsp) (if operation = .sub then -(area : Int) else area) ∧
      after.registers .rbp = machine.registers .rbp := by
  rw [← executeAll_singleton] at done
  rcases kind with rfl | rfl
  · obtain ⟨moved, ran, pointer, wrote⟩ := wrote_sub machine (signed64 area)
    obtain rfl := Option.some.inj (ran.symm.trans done)
    exact ⟨pointer.trans (offset_neg_signed64 _ _), wrote.registers .rbp (by decide)⟩
  · obtain ⟨moved, ran, pointer, wrote⟩ := wrote_add machine (signed64 area) .rsp
    obtain rfl := Option.some.inj (ran.symm.trans done)
    exact ⟨pointer.trans (offset_signed64 _ _), wrote.registers .rbp (by decide)⟩

/-- A register that is restored comes from its place among those that have been saved. -/
theorem Stage.Holds.pop {restored : Nat} {register : Register}
    (holds : (Stage.leaving restored).Holds lowering base machine)
    (saved : savedRegisters.reverse[restored]? = some register) :
    (Stage.leaving (restored + 1)).Holds lowering base (machine.pop register) := by
  obtain ⟨pointer, loaded⟩ := holds
  have distinct : savedRegisters.reverse.Nodup := by decide
  have unlike : ∀ register ∈ savedRegisters.reverse, register ≠ .rsp := by decide
  constructor
  · rw [Machine.pop, Machine.registers_setRegister_of_ne
      (unlike register (List.mem_of_getElem? saved)).symm, Machine.registers_setRegister_self,
      pointer, offset_offset]
    rfl
  · -- a register that was restored before is another one, and stays
    intro index other listed less
    have other' := unlike other (List.mem_of_getElem? listed)
    show (machine.pop register).registers other = BitVec.ofNat 64 (machine.load _ 8)
    rcases Nat.lt_succ_iff_lt_or_eq.mp less with earlier | rfl
    · have different : other ≠ register := by
        rintro rfl
        obtain ⟨inside, _⟩ := List.getElem?_eq_some_iff.mp listed
        exact Nat.ne_of_lt earlier
          ((List.getElem?_inj inside distinct).mp (listed.trans saved.symm))
      rw [Machine.pop, Machine.registers_setRegister_of_ne different,
        Machine.registers_setRegister_of_ne other', loaded index other listed earlier]
    · obtain rfl := Option.some.inj (listed.symm.trans saved)
      rw [Machine.pop, Machine.registers_setRegister_self, pointer]

/-- **A move leads from orderly code to orderly code.** -/
theorem Stands.move (lands : lowering.Lands rules program body behind names)
    (stands : lowering.Stands rules names behind base running) (move : Move program running next) :
    lowering.Stands rules names behind base next := by
  obtain ⟨stage, lines, code, orderly, holds⟩ := stands
  obtain ⟨whole, machine⟩ := running
  obtain rfl : whole = lines ++ behind := code
  -- a jump goes to a label of the code, where there is no area
  have arrive : ∀ {target : String} {found : List Line} {machine : Machine}, target ∈ names →
      goto target program = some found → (Stage.inside 0).Holds lowering base machine →
      lowering.Stands rules names behind base (found, machine) := by
    intro target found machine listed place holds
    obtain ⟨inner, _, place', orderly⟩ := lands target listed
    obtain rfl := Option.some.inj (place'.symm.trans place)
    exact ⟨_, inner, rfl, orderly, holds⟩
  cases orderly with
  | finish => cases holds
  | resume => cases holds
  | plain plain orderly =>
    obtain ⟨rest, keeps, _⟩ := move.of_isPlain plain.plain
    exact ⟨_, _, rest, orderly, holds.keeps keeps⟩
  | comment text orderly =>
    cases move with | execute done => ?_
    obtain rfl := Option.some.inj done
    exact ⟨_, _, rfl, orderly, holds⟩
  | label name orderly =>
    cases move with | execute done => ?_
    obtain rfl := Option.some.inj done
    exact ⟨_, _, rfl, orderly, holds⟩
  | reserve reserves orderly =>
    cases move with | execute done => ?_
    obtain ⟨pointer, frame⟩ := executed_moveStack (.inl rfl) done
    refine ⟨_, _, rfl, orderly, frame.trans holds.1, ?_⟩
    rw [pointer, holds.2, offset_offset, if_pos rfl]
    congr 1
    omega
  | release orderly =>
    cases move with | execute done => ?_
    obtain ⟨pointer, frame⟩ := executed_moveStack (.inr rfl) done
    refine ⟨_, _, rfl, orderly, frame.trans holds.1, ?_⟩
    rw [pointer, holds.2, offset_offset, if_neg (by decide)]
    congr 1
    omega
  | call symbol reserves orderly =>
    cases move with
    | execute done => cases done
    | call keeps => exact ⟨_, _, rfl, orderly, holds.keeps keeps⟩
  | jump listed orderly =>
    cases move with
    | execute done => cases done
    | jump found => exact arrive listed found holds
  | jumpIf listed orderly =>
    cases move with
    | execute done => cases done
    | taken found => exact arrive listed found holds
    | skipped => exact ⟨_, _, rfl, orderly, holds⟩
  | trap => cases move with | execute done => cases done
  | leave orderly =>
    cases move with | execute done => ?_
    rw [execute, Machine.read_full] at done
    obtain rfl := Option.some.inj ((Machine.write_full machine .rsp _).symm.trans done)
    refine ⟨_, _, rfl, orderly, ?_, fun _ _ _ less => absurd less (Nat.not_lt_zero _)⟩
    rw [Machine.registers_setRegister_self, holds.1]
    exact (offset_zero base).symm
  | restore saved orderly =>
    cases move with | execute done => ?_
    obtain rfl := Option.some.inj done
    exact ⟨_, _, rfl, orderly, holds.pop saved⟩
  | ret => cases move with | execute done => cases done

/-- **So do all executions.** -/
theorem Stands.path (lands : lowering.Lands rules program body behind names)
    (stands : lowering.Stands rules names behind base running)
    (path : Execution program running next) : lowering.Stands rules names behind base next := by
  induction path with
  | refl => exact stands
  | tail _ move ih => exact ih.move lands move

/-- **Code at a label**: control comes to the label from the line before, or has come to what stands
behind it, by a jump or past the label. -/
def AtLabel (program : List Line) (names : List String) (code : List Line) : Prop :=
  (∃ name rest, code = .label name :: rest) ∨ ∃ name ∈ names, goto name program = some code

/-- **The stack pointer where it matters**: below `%rbp` by the size of the frame at a label, a
multiple of sixteen at a call, and at a return where it was on entry; there the saved registers have
what memory holds in their places. -/
structure Upright (lowering : Lowering) (program : List Line) (names : List String)
    (entry : Machine) (running : Running) : Prop where
  label : AtLabel program names running.1 →
    running.2.registers .rbp = offset (entry.registers .rsp) (-24) ∧
    running.2.registers .rsp =
      offset (running.2.registers .rbp) (-(lowering.frame.size : Int))
  call : ∀ symbol rest, running.1 = .call symbol :: rest → 16 ∣ (running.2.registers .rsp).toNat
  ret : ∀ rest, running.1 = .ret :: rest →
    running.2.registers .rsp = entry.registers .rsp ∧
    ∀ index register, savedRegisters.reverse[index]? = some register →
      running.2.registers register = BitVec.ofNat 64
        (running.2.load (offset (offset (entry.registers .rsp) (-24)) (8 * index : Nat)) 8)

/-- The size of a frame is a multiple of sixteen bytes. -/
theorem dvd_frameSize (lowering : Lowering) : 16 ∣ lowering.frame.size :=
  dvd_roundUp _ (by decide)

/-- A line that stands first in orderly code. -/
theorem Stands.exists_cons {line : Line} {rest : List Line}
    (stands : lowering.Stands rules names behind base running) (first : running.1 = line :: rest) :
    ∃ stage lines, lowering.Orderly rules names stage (line :: lines) ∧
      stage.Holds lowering base running.2 := by
  obtain ⟨stage, lines, code, orderly, holds⟩ := stands
  cases lines with
  | nil =>
    cases orderly with
    | finish => cases holds
    | resume => cases holds
  | cons other lines =>
    obtain ⟨rfl, _⟩ := List.cons.inj (code.symm.trans first)
    exact ⟨stage, lines, orderly, holds⟩

/-- There is no area at a label. -/
theorem Stands.holds_of_label {name : String} {rest : List Line}
    (stands : lowering.Stands rules names behind base running)
    (first : running.1 = .label name :: rest) :
    (Stage.inside 0).Holds lowering base running.2 := by
  obtain ⟨stage, lines, orderly, holds⟩ := stands.exists_cons first
  cases orderly with
  | resume => cases holds
  | plain plain => cases plain.plain
  | label => exact holds

/-- **Nor is there behind it**, whether control has passed the label or jumped there. -/
theorem Stands.holds_of_goto {name : String}
    (stands : lowering.Stands rules names behind base running) (suffix : running.1 <:+ program)
    (move : Move program running next) (place : goto name program = some next.1) :
    (Stage.inside 0).Holds lowering base next.2 := by
  cases move with
  | execute done =>
    obtain rfl := eq_label_of_goto suffix place
    obtain rfl := Option.some.inj done
    exact stands.holds_of_label rfl
  | jump =>
    obtain ⟨stage, lines, orderly, holds⟩ := stands.exists_cons rfl
    cases orderly with
    | resume => cases holds
    | plain plain => cases plain.plain
    | jump => exact holds
  | taken =>
    obtain ⟨stage, lines, orderly, holds⟩ := stands.exists_cons rfl
    cases orderly with
    | resume => cases holds
    | plain plain => cases plain.plain
    | jumpIf => exact holds
  | _ => cases eq_label_of_goto suffix place

/-- **There is no area at any label that an execution comes to.** -/
theorem Stands.holds_of_atLabel {start : Running}
    (lands : lowering.Lands rules program body behind names)
    (stands : lowering.Stands rules names behind base start) (suffix : start.1 <:+ program)
    (holds : (Stage.inside 0).Holds lowering base start.2)
    (path : Execution program start running) (at' : AtLabel program names running.1) :
    (Stage.inside 0).Holds lowering base running.2 := by
  rcases at' with ⟨name, rest, first⟩ | ⟨name, _, place⟩
  · exact (stands.path lands path).holds_of_label first
  · rcases path.cases_tail with rfl | ⟨previous, before, move⟩
    · exact holds
    · exact (stands.path lands before).holds_of_goto (Execution.suffix before suffix) move place

/-- **The stack pointer is as it should be in orderly code.** -/
theorem Stands.upright (aligned : (entry.registers .rsp).toNat % 16 = 8)
    (stands : lowering.Stands rules names behind (offset (entry.registers .rsp) (-24)) running)
    (label : AtLabel program names running.1 →
      (Stage.inside 0).Holds lowering (offset (entry.registers .rsp) (-24)) running.2) :
    lowering.Upright program names entry running := by
  constructor
  case label =>
    intro at'
    have holds := label at'
    exact ⟨holds.1, by rw [holds.1, holds.2, Nat.add_zero]⟩
  case call =>
    intro symbol rest first
    obtain ⟨stage, lines, orderly, holds⟩ := stands.exists_cons first
    cases orderly with
    | resume => cases holds
    | plain plain => cases plain.plain
    | call _ reserves =>
      rw [holds.2]
      exact dvd_offset aligned (Nat.dvd_add lowering.dvd_frameSize reserves.dvd)
  case ret =>
    intro rest first
    obtain ⟨stage, lines, orderly, holds⟩ := stands.exists_cons first
    cases orderly with
    | resume => cases holds
    | plain plain => cases plain.plain
    | ret =>
      refine ⟨?_, fun index register listed => holds.2 index register listed ?_⟩
      · rw [holds.1, offset_offset]
        exact offset_zero _
      · rw [← List.length_reverse]
        exact (List.getElem?_eq_some_iff.mp listed).1

/-! ### Stores of the function -/

/-- **A store that misses the saved registers**, where `%rbp` points at them and `%rsp` is below by
the size of the frame and of an area. Where other registers point is not known. -/
def shelter (lowering : Lowering) (area : Nat) : StoreRule := fun base start count =>
  (base = .rbp → ∀ pointer, Apart (offset pointer start) count pointer 24) ∧
  (base = .rsp → ∀ pointer, Apart
    (offset (offset pointer (-(lowering.frame.size + area : Nat))) start) count pointer 24)

/-- **The saved registers, the frame and each area below fit into the address space together.** -/
def Roomy (lowering : Lowering) : Prop :=
  ∀ area, lowering.Reserves area → lowering.frame.size + area + 24 ≤ 0x10000000000000000

/-- A range that ends at a pointer misses what is behind the pointer. -/
theorem apart_below {depth place count : Nat} (inside : place + count ≤ depth)
    (near : depth + 24 ≤ 0x10000000000000000) (pointer : BitVec 64) :
    Apart (offset pointer (-(depth : Int) + place)) count pointer 24 := by
  have apart : Apart (offset pointer (-(depth : Int) + place)) count (offset pointer 0) 24 :=
    apart_of_le (by omega) (by omega)
  rwa [offset_zero] at apart

/-- **Home slots and areas are away from the saved registers.** -/
theorem fair_shelter (prepared : lowering.Prepared) (roomy : lowering.Roomy) :
    lowering.Fair lowering.shelter := by
  obtain ⟨depths, stacked, _⟩ := Frame.exists_stacked_of prepared.framed
  constructor
  case slot =>
    intro area value start size known sized place count inside
    refine ⟨fun _ pointer => ?_, by rintro ⟨⟩⟩
    obtain ⟨depth, listed, rfl⟩ := stacked.slot?_eq_some (of_slot known)
    have room := roomy 0 .nothing
    have within := stacked.inside _ listed
    have bytes : Frame.bytesOf lowering.subject value = size := by
      rw [Frame.bytesOf, sized]
      rfl
    have deep : lowering.frame.depth ≤ lowering.frame.size := le_roundUp _ _
    rw [← offset_offset, Frame.displacement, offset_signed64, offset_offset]
    dsimp only at within
    exact apart_below (by omega) (by omega) pointer
  case incoming =>
    intro area id slot source target copy base start size symbol inside leads copied sized symbolic
      covers
    have block := prepared.mem_blocksOf_of_target inside leads
    have typed := (prepared.incoming_of_mem block copied).typed
    obtain rfl := size_of_symbol symbolic (typed ▸ sized)
    exact covers
  case area =>
    intro area start size reserves room place count inside
    refine ⟨by rintro ⟨⟩, fun _ pointer => ?_⟩
    have fits := roomy area reserves
    rw [← offset_offset, offset_signed64, offset_offset, offset_offset, ← Int.natCast_add]
    exact apart_below (by omega) (by omega) pointer
  case pointer => exact fun _ _ _ => ⟨by rintro ⟨⟩, by rintro ⟨⟩⟩
  case result => exact fun _ _ _ => ⟨by rintro ⟨⟩, by rintro ⟨⟩⟩

/-- **The saved registers stay in memory**, unless they are overwritten by what is out of sight. -/
theorem Stands.spared
    (stands : lowering.Stands lowering.shelter names behind base running)
    (sparing : SparingMove program base 24 running next) :
    next.2.memory.bytes base 24 = running.2.memory.bytes base 24 := by
  obtain ⟨stage, lines, code, orderly, holds⟩ := stands
  obtain ⟨whole, machine⟩ := running
  obtain rfl : whole = lines ++ behind := code
  obtain ⟨move, spared⟩ := sparing
  have silent : ∀ {line : Line} {after : Machine}, line.ranges machine = [] →
      execute line machine = some after →
      after.memory.bytes base 24 = machine.memory.bytes base 24 := by
    intro line after none done
    refine bytes_of_execute done ?_
    rw [none]
    exact List.forall_mem_nil _
  cases orderly with
  | finish => cases holds
  | resume => cases holds
  | @plain line _ area plain =>
    obtain ⟨_, _, bytes⟩ := move.of_isPlain plain.plain
    cases wild : line.isWild with
    | true => exact spared line rfl wild
    | false =>
      -- the store is at a place known from `%rbp` or `%rsp`, so it follows the rule
      refine bytes base 24 fun store member => ?_
      obtain ⟨frame, stack⟩ := plain.stores store member
      have known : store.1 = .rbp ∨ store.1 = .rsp := by
        have calm : (line.stores.any fun store => store.1 ≠ .rbp && store.1 ≠ .rsp) = false := by
          cases line <;> first | exact wild | rfl
        have here := List.any_eq_false.mp calm store member
        by_contra other
        rw [not_or] at other
        exact here (by simp [other])
      rcases known with same | same
      · rw [same, holds.1]
        exact frame same base
      · rw [same, holds.2]
        exact stack same base
  | call symbol => exact spared _ rfl rfl
  | jump | jumpIf => cases move <;> first | rfl | exact silent rfl ‹_›
  | _ => cases move with | execute done => exact silent rfl done

/-- So they do along executions. -/
theorem Stands.spared_of_execution
    (lands : lowering.Lands lowering.shelter program body behind names)
    (stands : lowering.Stands lowering.shelter names behind base running)
    (path : SparingExecution program base 24 running next) :
    next.2.memory.bytes base 24 = running.2.memory.bytes base 24 := by
  induction path with
  | refl => rfl
  | tail before sparing ih =>
    have arrived := stands.path lands (SparingExecution.execution before)
    exact (arrived.spared sparing).trans ih

end Lowering

end SsaAmd64
