/-
**Homes of integers.**

Each value of a function of integers has its home slot, which is as wide as the register that holds
the value. There are at most as many as there are handles, so the frame is small.

* `Asm.Width.holding`: the width of the registers and slots for integers of some bits;
* `Lowering.Integral`: a function of integers for which code is made;
* `Lowering.Home`: a value and its home slot;
* `Lowering.Home.apart`: slots of different values are apart;
* `Lowering.Integral.size_le`: the frame is small.
-/

import SsaAmd64.Lowering.Context
import SsaAmd64.Proofs.Ir.Names
import SsaAmd64.Proofs.Ir.Types
import SsaAmd64.Proofs.Lowering.Places
import SsaAmd64.Proofs.Machine.Registers
import SsaAmd64.Proofs.Validation.Accepted

namespace SsaAmd64

open Asm

/-! ### Widths -/

/-- The width of the registers and slots that hold integers of some bits. -/
def Asm.Width.holding (bits : Nat) : Width :=
  if bits ≤ 8 then .byte else if bits ≤ 16 then .word else if bits ≤ 32 then .long else .quad

variable {bits : Nat}

theorem mem_registerWidths :
    bits ∈ registerWidths ↔ bits = 1 ∨ bits = 8 ∨ bits = 16 ∨ bits = 32 ∨ bits = 64 := by
  simp [registerWidths]

/-- A bit takes up a byte, and all others what they are wide. -/
theorem bits_holding (wide : bits ∈ registerWidths) :
    bits = 1 ∨ (Width.holding bits).bits = bits := by
  rcases mem_registerWidths.mp wide with rfl | rfl | rfl | rfl | rfl <;> decide

theorem le_bits_holding (wide : bits ∈ registerWidths) : bits ≤ (Width.holding bits).bits := by
  rcases mem_registerWidths.mp wide with rfl | rfl | rfl | rfl | rfl <;> decide

theorem le_of_registerWidths (wide : bits ∈ registerWidths) : bits ≤ 64 := by
  rcases mem_registerWidths.mp wide with rfl | rfl | rfl | rfl | rfl <;> decide

theorem pos_of_registerWidths (wide : bits ∈ registerWidths) : 0 < bits := by
  rcases mem_registerWidths.mp wide with rfl | rfl | rfl | rfl | rfl <;> decide

theorem bytes_holding_le (bits : Nat) : (Width.holding bits).bytes ≤ 8 := by
  cases Width.holding bits <;> decide

theorem size_int (wide : bits ∈ registerWidths) :
    (Ty.int bits).size = .ok (Width.holding bits).bytes := by
  rcases mem_registerWidths.mp wide with rfl | rfl | rfl | rfl | rfl <;> rfl

namespace Lowering

/-- **A function of integers for which code is made.** -/
structure Integral (lowering : Lowering) : Prop extends lowering.Prepared where
  /-- Values go by handles of 32 bits. -/
  small : lowering.subject.entries.size ≤ 0x100000000
  integral : lowering.subject.IsIntegral lowering.function

/-- **A value of an integer type and the displacement of its home slot.** -/
structure Home (lowering : Lowering) (id : ValueId) (bits : Nat) (start : Int) : Prop where
  wide : bits ∈ registerWidths
  typed : lowering.subject.typeOf id = .int bits
  slot : lowering.frame.slot? id = some start

variable {lowering : Lowering} {id other : ValueId} {bits' : Nat} {start start' : Int}

/-! ### Values that have homes -/

namespace Integral

theorem linked (setting : lowering.Integral) : lowering.subject.Linked :=
  setting.accepted.built.linked

theorem function?_of_parameter (member : id ∈ lowering.subject.parametersOf lowering.function) :
    ∃ held, lowering.subject.function? lowering.function = some held := by
  cases found : lowering.subject.function? lowering.function with
  | none =>
    rw [Module.parametersOf, found] at member
    cases member
  | some held => exact ⟨held, rfl⟩

/-- A parameter of the function, with its type. -/
theorem parameter (setting : lowering.Integral)
    (member : id ∈ lowering.subject.parametersOf lowering.function) :
    ∃ parameter, lowering.subject.parameter? id = some parameter ∧ parameter.type.IsIntegral := by
  obtain ⟨held, found⟩ := function?_of_parameter member
  obtain ⟨index, inside, rfl⟩ := List.mem_iff_getElem.mp member
  obtain ⟨type, known, held'⟩ :=
    setting.linked.parameter? found (List.getElem?_eq_getElem inside)
  exact ⟨_, held', (setting.integral.signature held found).2 type (List.mem_of_getElem? known)⟩

theorem instruction?_of_parameter? {parameter : Parameter}
    (held : lowering.subject.parameter? id = some parameter) :
    lowering.subject.instruction? id = none := by
  rw [Module.parameter?] at held
  split at held
  case h_1 content => rw [Module.instruction?, content]
  case h_2 => cases held

theorem instruction (setting : lowering.Integral)
    (member : id ∈ lowering.subject.bodyOf lowering.function) :
    ∃ held, lowering.subject.instruction? id = some held ∧ held.opcode.isIntegral = true := by
  have kind := setting.integral.opcodes id member
  rw [Module.hasOpcode, Module.opcode?] at kind
  cases found : lowering.subject.instruction? id with
  | none =>
    rw [found] at kind
    cases kind
  | some held =>
    rw [found] at kind
    exact ⟨held, rfl, kind⟩

/-- What has a home is an integer, and no storage. -/
theorem integral_homes (setting : lowering.Integral) :
    ∀ id ∈ Frame.homes lowering.subject lowering.function,
      (lowering.subject.typeOf id).IsIntegral ∧
        ∀ storage, lowering.subject.opcode? id ≠ some (.alloc storage) := by
  intro id member
  rcases List.mem_append.mp member with parameter | value
  · obtain ⟨parameter, held, type⟩ := setting.parameter parameter
    rw [Module.typeOf_parameter held, Module.opcode?, instruction?_of_parameter? held]
    exact ⟨type, fun storage alloc => by cases alloc⟩
  · obtain ⟨inBody, produces⟩ := List.mem_filter.mp value
    rw [Module.producesValue, Bool.and_eq_true] at produces
    obtain ⟨held, found, kind⟩ := setting.instruction inBody
    refine ⟨setting.integral.results id inBody produces.1, fun storage alloc => ?_⟩
    rw [Module.opcode?, found] at alloc
    rw [Option.some.inj alloc] at kind
    cases kind

theorem mem_ids {m : Module} {content : Content} (found : m.content? id = some content) :
    id ∈ m.ids := by
  have inside : id.index < m.entries.size := by
    refine Nat.lt_of_not_le fun fresh => ?_
    rw [Module.content?, Module.entry?, Array.getElem?_eq_none fresh] at found
    cases found
  exact List.mem_map.mpr ⟨id.index, List.mem_range.mpr inside, rfl⟩

/-- There are no more homes than values. -/
theorem length_homes_le (setting : lowering.Integral) :
    (Frame.homes lowering.subject lowering.function).length ≤ 0x100000000 := by
  have subset : Frame.homes lowering.subject lowering.function ⊆ lowering.subject.ids := by
    intro id member
    rcases List.mem_append.mp member with parameter | value
    · obtain ⟨parameter, held, _⟩ := setting.parameter parameter
      rw [Module.parameter?] at held
      split at held
      case h_1 content => exact mem_ids content
      case h_2 => cases held
    · obtain ⟨held, found, _⟩ := setting.instruction (List.mem_filter.mp value).1
      exact mem_ids (Module.content?_of_instruction? found)
  have fewer := (setting.linked.nodup_homes _).length_le_of_subset subset
  rw [Module.ids, List.length_map, List.length_range] at fewer
  exact Nat.le_trans fewer setting.small

/-- Frames are small against the address space. -/
theorem depth_le (setting : lowering.Integral) : lowering.frame.depth ≤ 0x1000000000 := by
  have bound := Frame.depth_allocate_le setting.integral_homes setting.framed
  have few := setting.length_homes_le
  have empty : Frame.empty.depth = 0 := rfl
  omega

theorem exists_home (setting : lowering.Integral)
    (member : id ∈ Frame.homes lowering.subject lowering.function) :
    ∃ bits start, lowering.Home id bits start := by
  obtain ⟨depths, stacked, keys⟩ := Frame.exists_stacked_of setting.framed
  rw [← keys] at member
  obtain ⟨start, slot⟩ := stacked.slot?_of_mem member
  rw [keys] at member
  obtain ⟨bits, wide, typed⟩ := (setting.integral_homes id member).1
  exact ⟨bits, start, wide, typed, slot⟩

end Integral

theorem Integral.size_le (setting : lowering.Integral) : lowering.frame.size ≤ 0x1000000010 := by
  have deep := setting.depth_le
  have rounded : lowering.frame.size ≤ lowering.frame.depth + 16 := roundUp_le _ _
  omega

/-! ### Where homes lie -/

namespace Home

theorem placed (home : lowering.Home id bits start) :
    lowering.Placed id start (Width.holding bits).bytes :=
  ⟨home.slot, home.typed ▸ size_int home.wide⟩

/-- **Slots of different values are apart.** -/
theorem apart (one : lowering.Home id bits start) (two : lowering.Home other bits' start')
    (setting : lowering.Integral) (different : id ≠ other) (base : BitVec 64) :
    Apart (offset base start) (Width.holding bits).bytes
      (offset base start') (Width.holding bits').bytes :=
  one.placed.apart setting.toPrepared two.placed different
    (Nat.le_trans setting.size_le (by decide)) base

end Home

end Lowering

end SsaAmd64
