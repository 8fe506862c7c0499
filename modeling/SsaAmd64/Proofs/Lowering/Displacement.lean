/-
**Address arithmetic.**

Each index moves an address: through a pointer or into an array by as many elements as it says, into a
struct to the field that it names. Code adds the indices that are known only at run time as they come,
and all others at the end; words wrap around, so that the order does not matter.

* `Module.displacement`: what indices add to an address;
* `Lowering.ofInt_signedIndex`: an index that is a literal, and the same index at run time;
* `Lowering.Adds`: lines add a number to `%rax`;
* `Lowering.adds_addressStep`, `Lowering.adds_addressSteps`: the code of one index and of several;
* `Lowering.gep_exact`: the code of an address computation.
-/

import SsaAmd64.Proofs.Lowering.Fields
import SsaAmd64.Proofs.Lowering.Operands

namespace SsaAmd64

open Asm

/-! ### What indices add -/

namespace Module

/-- What an index adds to an address of a type, where indices have been read as numbers. -/
def stepDisplacement (m : Module) (read : ValueId → Int) (index : ValueId) : Ty → Option Int
  | .pointer element | .array _ element => do
    let stride ← element.stride.toOption
    return read index * stride
  | .struct packed fields => do
    let number ← (← m.literal? index).natValue?
    let offset ← (fieldOffset packed fields number).toOption
    return offset
  | _ => none

/-- **What indices add to an address of a type**: the distance of elements times the index for each
that leads through a pointer or into an array, and the offset of the field for each into a struct. -/
def displacement (m : Module) (read : ValueId → Int) (position : Nat) (type : Ty) :
    List ValueId → Option Int
  | [] => some 0
  | index :: indices => do
    let next ← m.stepType position (some index) type
    let here ← m.stepDisplacement read index type
    let later ← m.displacement read (position + 1) next indices
    return here + later

end Module

namespace Lowering

variable {lowering : Lowering} {id base index : ValueId} {held : Instruction}
variable {position width value : Nat} {type next target : Ty} {indices : List ValueId}
variable {lines first second : List Line} {machine after : Machine} {amount other : Int}
variable {step : AddressStep}

/-! ### Readings of an index -/

theorem ofInt_bmod (many : 64 ≤ width) (number : Int) :
    BitVec.ofInt 64 (number.bmod (patternCount width)) = BitVec.ofInt 64 number := by
  refine BitVec.eq_of_toInt_eq ?_
  rw [BitVec.toInt_ofInt, BitVec.toInt_ofInt]
  exact Int.bmod_bmod_of_dvd (Nat.pow_dvd_pow 2 many)

/-- **An index that is a literal stands for the word that it would be at run time.** -/
theorem ofInt_signedIndex (inRange : value < patternCount (min width 128)) :
    BitVec.ofInt 64 (signedIndex width value) = BitVec.ofInt 64 (signedReading width value) := by
  have fits : value < patternCount width :=
    Nat.lt_of_lt_of_le inRange (Nat.pow_le_pow_right Nat.two_pos (Nat.min_le_left _ _))
  rw [signedReading_eq fits, signedIndex, ofInt_signed64]
  by_cases many : 128 < width
  · rw [ofInt_bmod (by omega), ofInt_bmod (by omega)]
  · by_cases empty : width = 0
    · subst empty
      obtain rfl : value = 0 := Nat.lt_one_iff.mp inRange
      rfl
    · have same : min (max width 1) 128 = width := by omega
      rw [same]

theorem reading_of_literal {inRange : value < patternCount (min width 128)}
    (known : lowering.source index = .ok (.literal (.int width value inRange)))
    (machine : Machine) : lowering.reading machine true index = signedReading width value := by
  have typed := Module.typeOf_literal (literal?_of_source known)
  rw [reading, typed, number, known]
  rfl

/-! ### Lines that add -/

/-- **Lines add a number to `%rax`**, and change nothing else but scratch registers. -/
def Adds (lines : List Line) (machine : Machine) (amount : Int) : Prop :=
  ∃ next, executeAll lines machine = some next ∧
    next.registers .rax = offset (machine.registers .rax) amount ∧
    machine.Wrote [.rax, .rcx, .rdx] [] next

theorem adds_nil (machine : Machine) : Adds [] machine 0 :=
  ⟨machine, rfl, (offset_zero _).symm, .refl _ machine⟩

/-- Lines that add go on from where lines that add have come to. -/
theorem Adds.exists_next (one : Adds first machine amount) :
    ∃ next, machine.Wrote [.rax, .rcx, .rdx] [] next ∧
      ∀ second other, Adds second next other → Adds (first ++ second) machine (amount + other) := by
  obtain ⟨next, ran, sum, wrote⟩ := one
  refine ⟨next, wrote, ?_⟩
  rintro second other ⟨last, ran', sum', wrote'⟩
  refine ⟨last, executeAll_append_of ran ran', ?_, wrote.trans wrote'⟩
  rw [sum', sum, offset_offset]

/-- The code that scales an index. -/
theorem executeAll_scaled (stride : Int) (machine : Machine) :
    ∃ next, executeAll (if stride = 1 then [] else if fits32 stride then
        [.scale stride .rcx .rcx]
      else [.movabs stride .rdx, .arithmetic .imul .quad (.full .rdx) (.full .rcx)]) machine =
        some next ∧
      next.registers .rcx = machine.registers .rcx * BitVec.ofInt 64 stride ∧
      machine.Wrote [.rcx, .rdx] [] next := by
  by_cases one : stride = 1
  · subst one
    exact ⟨machine, rfl, (BitVec.mul_one _).symm, .refl _ machine⟩
  · rw [if_neg one]
    by_cases short : fits32 stride = true
    · rw [if_pos short]
      have done : execute (.scale stride .rcx .rcx) machine = some ((machine.setRegister .rcx
          (machine.registers .rcx * BitVec.ofInt 64 stride)).setFlags none) := rfl
      obtain ⟨next, ran, product, wrote⟩ := wrote_result done
      exact ⟨next, ran, product, wrote.mono (by simp)⟩
    · rw [if_neg short]
      obtain ⟨loaded, ran, inRdx, wrote⟩ := wrote_movabs machine stride .rdx
      have done : execute (.arithmetic .imul .quad (.full .rdx) (.full .rcx)) loaded =
          some ((loaded.setRegister .rcx
            (machine.registers .rcx * BitVec.ofInt 64 stride)).setFlags none) := by
        have left : loaded.read .quad (.full .rcx) = machine.registers .rcx :=
          (loaded.read_full .rcx).trans (wrote.registers .rcx (by decide))
        have right : loaded.read .quad (.full .rdx) = BitVec.ofInt 64 stride :=
          (loaded.read_full .rdx).trans inRdx
        rw [execute, Machine.arithmetic, left, right]
        exact Machine.writeResult_full loaded .rcx _ _
      obtain ⟨next, ran', product, wrote'⟩ := wrote_result done
      exact ⟨next, executeAll_append_of ran ran', product,
        (wrote.mono (by simp)).trans (wrote'.mono (by simp))⟩

/-- **An index known at run time is scaled and added.** -/
theorem adds_addScaled {stride : Int} (code : lowering.addScaled index stride = .ok lines)
    (integer : lowering.subject.typeOf index = .int width) (machine : Machine) :
    Adds lines machine (lowering.reading machine true index * stride) := by
  obtain ⟨load, loads, code⟩ := ok_of_bind code
  obtain rfl := Except.ok.inj code
  have sized : (lowering.subject.typeOf index).bits? = some width := by
    rw [integer]
    rfl
  obtain ⟨_, loaded, ran, inRcx, wrote⟩ := wrote_loadInt loads sized machine
  obtain ⟨scaled, ran', product, wrote'⟩ := executeAll_scaled stride loaded
  obtain ⟨last, ran'', sum, wrote''⟩ := wrote_sum scaled (scaled.read_full .rcx) .rax
  refine ⟨last, executeAll_append_of (executeAll_append_of ran ran') ran'', ?_, ?_⟩
  · rw [sum, product, inRcx, wrote'.registers .rax (by decide), wrote.registers .rax (by decide),
      offset, BitVec.ofInt_mul]
  · exact ((wrote.mono (by simp)).trans (wrote'.mono (by simp))).trans (wrote''.mono (by simp))

/-- A constant is added. -/
theorem adds_addConstant (amount : Int) (machine : Machine) :
    Adds (addConstant amount) machine amount := by
  rw [addConstant]
  by_cases zero : amount = 0
  · subst zero
    exact adds_nil machine
  · rw [if_neg zero]
    by_cases short : fits32 amount = true
    · rw [if_pos short]
      obtain ⟨next, ran, sum, wrote⟩ := wrote_add machine amount .rax
      exact ⟨next, ran, sum, wrote.mono (by simp)⟩
    · rw [if_neg short]
      obtain ⟨loaded, ran, inRcx, wrote⟩ := wrote_movabs machine amount .rcx
      obtain ⟨next, ran', sum, wrote'⟩ := wrote_sum loaded ((loaded.read_full .rcx).trans inRcx) .rax
      refine ⟨next, executeAll_append_of ran ran', ?_,
        (wrote.mono (by simp)).trans (wrote'.mono (by simp))⟩
      rw [sum, wrote.registers .rax (by decide), offset]

/-! ### Indices -/

theorem constantIndex?_eq_some {source : Source} {constant : Int}
    (known : constantIndex? source = some constant) :
    ∃ width value, ∃ inRange : value < patternCount (min width 128),
      source = .literal (.int width value inRange) ∧ signedIndex width value = constant := by
  unfold constantIndex? at known
  split at known
  case h_1 width value inRange => exact ⟨width, value, inRange, rfl, Option.some.inj known⟩
  case h_2 => cases known

/-- An index through a pointer or into an array, known or not. -/
theorem adds_elementStep {source : Source} {element : Ty}
    (known : lowering.source index = .ok source)
    (integer : lowering.subject.typeOf index = .int width)
    (code : lowering.elementStep index (constantIndex? source) element = .ok step)
    (machine : Machine) :
    ∃ stride amount, element.stride = .ok stride ∧ Adds step.lines machine amount ∧
      BitVec.ofInt 64 (amount + step.constant) =
        BitVec.ofInt 64 (lowering.reading machine true index * stride) := by
  obtain ⟨extent, found, code⟩ := ok_of_bind code
  have distance : element.stride = .ok extent.stride := by
    rw [Ty.stride, ok_of_mapError found]
    rfl
  dsimp only at code
  split at code
  case h_1 constant isConstant =>
    obtain ⟨held, value, inRange, rfl, rfl⟩ := constantIndex?_eq_some isConstant
    obtain rfl := Except.ok.inj code
    refine ⟨extent.stride, 0, distance, adds_nil machine, ?_⟩
    rw [reading_of_literal known, Int.zero_add, ofInt_signed64, BitVec.ofInt_mul,
      ofInt_signedIndex inRange, ofInt_signed64, BitVec.ofInt_mul]
  case h_2 =>
    obtain ⟨lines, scaled, code⟩ := ok_of_bind code
    obtain rfl := Except.ok.inj code
    refine ⟨extent.stride, _, distance, adds_addScaled scaled integer machine, ?_⟩
    rw [Int.add_zero, BitVec.ofInt_mul, ofInt_signed64, BitVec.ofInt_mul]

/-- **The code of an index adds what the index adds**, at once or with the constants at the end. -/
theorem adds_addressStep (leads : lowering.subject.StepsTo position (some index) type next)
    (countable : type.isCountable = true)
    (integer : lowering.subject.typeOf index = .int width)
    (code : lowering.addressStep id index type = .ok step) (machine : Machine) :
    ∃ here amount, lowering.subject.stepDisplacement (lowering.reading machine true) index type =
        some here ∧
      Adds step.lines machine amount ∧
      BitVec.ofInt 64 (amount + step.constant) = BitVec.ofInt 64 here := by
  cases leads with
  | pointer | array =>
    obtain ⟨source, known, code⟩ := ok_of_bind code
    obtain ⟨stride, amount, distance, adds, same⟩ := adds_elementStep known integer code machine
    refine ⟨_, amount, ?_, adds, same⟩
    rw [Module.stepDisplacement, distance]
    rfl
  | @field _ _ _ value inRange packed fields _ isLiteral named =>
    rw [addressStep_of_literal isLiteral,
      fieldStep_eq inRange named (length_le_of_isCountable countable)] at code
    split at code
    case isTrue => cases code
    case isFalse =>
      obtain ⟨offset, found, code⟩ := ok_of_bind code
      obtain rfl := Except.ok.inj code
      refine ⟨offset, 0, ?_, adds_nil machine, ?_⟩
      · rw [Module.stepDisplacement, isLiteral]
        show (do let offset ← (fieldOffset packed fields value).toOption; return (offset : Int)) = _
        rw [ok_of_mapError found]
        rfl
      · rw [Int.zero_add, ofInt_signed64]

/-- **The code of indices, and the sum of their constants, add what the indices add.** -/
theorem adds_addressSteps {sum total : Int}
    (leads : lowering.subject.LeadsTo position (indices.map some) type target)
    (countable : type.isCountable = true)
    (integers : ∀ index ∈ indices, ∃ width, lowering.subject.typeOf index = .int width)
    (code : lowering.addressSteps id type sum indices = .ok (lines, total)) (machine : Machine) :
    ∃ all amount, lowering.subject.displacement (lowering.reading machine true) position type
        indices = some all ∧
      Adds lines machine amount ∧
      BitVec.ofInt 64 (amount + total) = BitVec.ofInt 64 (sum + all) := by
  induction indices generalizing position type sum total lines machine with
  | nil =>
    obtain ⟨rfl, rfl⟩ := Prod.mk.inj (Except.ok.inj code)
    exact ⟨0, 0, rfl, adds_nil machine, by rw [Int.zero_add, Int.add_zero]⟩
  | cons index indices ih =>
    obtain ⟨⟨width, integer⟩, integers⟩ := List.forall_mem_cons.mp integers
    cases leads with
    | step one leads =>
      obtain ⟨step, done, code⟩ := ok_of_bind code
      obtain ⟨⟨others, last⟩, done', code⟩ := ok_of_bind code
      obtain ⟨rfl, rfl⟩ := Prod.mk.inj (Except.ok.inj code)
      obtain rfl := type_of_addressStep one countable done
      obtain ⟨here, amount, known, adds, same⟩ :=
        adds_addressStep one countable integer done machine
      obtain ⟨between, wrote, append⟩ := adds.exists_next
      obtain ⟨later, amount', known', adds', same'⟩ :=
        ih leads (isCountable_of_stepsTo one countable) integers done' between
      rw [reading_congr wrote (by decide)] at known'
      refine ⟨here + later, amount + amount', ?_, append _ _ adds', ?_⟩
      · simp only [Module.displacement, Module.stepType_eq_some_iff.mpr one, known, known',
          Option.bind_eq_bind, Option.bind_some]
        rfl
      · -- the constant of the index is in the sum that the others start from
        calc BitVec.ofInt 64 (amount + amount' + last)
            = BitVec.ofInt 64 amount + BitVec.ofInt 64 (amount' + last) := by
              rw [Int.add_assoc, BitVec.ofInt_add]
          _ = BitVec.ofInt 64 amount + (BitVec.ofInt 64 (sum + step.constant) +
                BitVec.ofInt 64 later) := by
              rw [same', BitVec.ofInt_add, ofInt_signed64]
          _ = BitVec.ofInt 64 sum + (BitVec.ofInt 64 (amount + step.constant) +
                BitVec.ofInt 64 later) := by
              rw [BitVec.ofInt_add, BitVec.ofInt_add]
              ac_rfl
          _ = BitVec.ofInt 64 (sum + (here + later)) := by
              rw [same, BitVec.ofInt_add, BitVec.ofInt_add]

/-! ### Address computations -/

/-- An address is a word. -/
theorem width_of_gep {width : Width} (found : lowering.subject.instruction? id = some held)
    (kind : held.opcode = .gep)
    (known : lowering.registerWidth (lowering.subject.typeOf id) = .ok width) : width = .quad := by
  have size := size_of_registerWidth known
  rcases Module.typeOf_gep found kind with none | ⟨element, pointer⟩
  · rw [none] at size
    cases size
  · rw [pointer] at size
    have eight : 8 = width.bytes := Except.ok.inj size
    cases width <;> first | rfl | cases eight

/-- **The code of an accepted address computation stores the base and all that the indices add**, as a
word: an index is read by its sign, wherever it is found. -/
theorem gep_exact (found : lowering.subject.instruction? id = some held)
    (kind : held.opcode = .gep) (filled : held.operand 0 = some base)
    (accepted : (RuleContext.of lowering.subject lowering.function).checkGep held = .ok ())
    (countable : (lowering.subject.typeOf base).isCountable = true)
    (code : lowering.gep id = .ok lines) (machine : Machine) :
    ∃ all, lowering.subject.displacement (lowering.reading machine true) 0
        (lowering.subject.typeOf base) (lowering.trailingValues id) = some all ∧
      lowering.Sets machine lines id
        ((lowering.number machine base + all) % patternCount 64).toNat := by
  obtain ⟨base', element, indices, target, filled', typed, slots, integers, leads⟩ :=
    RuleContext.of_checkGep accepted kind
  obtain rfl := Option.some.inj (filled.symm.trans filled')
  rw [RuleContext.subject_of] at typed integers leads
  rw [← typed] at leads
  rw [gep, operand_eq found filled, trailingValues_eq found slots] at code
  rw [trailingValues_eq found slots]
  obtain ⟨_, known, code⟩ := ok_of_bind code
  cases known
  obtain ⟨load, loads, code⟩ := ok_of_bind code
  obtain ⟨⟨steps, total⟩, followed, code⟩ := ok_of_bind code
  obtain ⟨store, stores, code⟩ := ok_of_bind code
  obtain rfl := Except.ok.inj code
  have sized : (lowering.subject.typeOf base).bits? = some 64 := by
    rw [typed]
    rfl
  obtain ⟨_, loaded, ran, inRax, wrote⟩ := wrote_loadInt loads sized machine
  obtain ⟨all, amount, displaced, adds, same⟩ :=
    adds_addressSteps leads countable integers followed loaded
  rw [reading_congr wrote (by decide)] at displaced
  obtain ⟨moved, _, append⟩ := adds.exists_next
  obtain ⟨last, ran', sum, wrote'⟩ := append _ _ (adds_addConstant total moved)
  refine ⟨all, displaced, ?_⟩
  rw [List.append_assoc load]
  refine sets_of_storeRegister (executeAll_append_of ran ran')
    ((wrote.mono (by simp)).trans wrote').sameExcept stores fun width fits => ?_
  obtain rfl := width_of_gep found kind fits
  have value : last.registers .rax = BitVec.ofInt 64 (lowering.number machine base + all) := by
    rw [sum, inRax, offset, same, Int.zero_add, BitVec.ofInt_add]
    rfl
  rw [value]
  show ((BitVec.ofInt 64 _).setWidth 64).toNat = _
  rw [BitVec.setWidth_eq, BitVec.toNat_ofInt]
  rfl

end Lowering

namespace Module

open Lowering

/-- A machine that has entered the function with the grid: a base at `0x2000`, and an index of minus
two. -/
def gridMachine : Machine where
  registers := fun register => if register = .rbp then 0x1000 else 0
  memory := fun address =>
    if address = 0xff6 then 0xfe else if address = 0xff7 then 0xff
    else if address = 0xff9 then 0x20 else 0
  flags := none
  symbols := fun _ => 0

/-- Two rows and one struct back, four bytes ahead and two cells back. -/
theorem gep_exact_grid : ∃ lines, gridLowering.gep ⟨6⟩ = .ok lines ∧
    gridLowering.Sets gridMachine lines ⟨6⟩ (0x2000 - (2 * 60 + 20 - 4 + 2 * 4)) := by
  obtain ⟨lines, code⟩ : ∃ lines, gridLowering.gep ⟨6⟩ = .ok lines := ⟨_, rfl⟩
  obtain ⟨all, displaced, sets⟩ := @gep_exact gridLowering ⟨6⟩ ⟨1⟩ gridGep lines instruction?_grid
    rfl rfl rfl (by decide +kernel) code gridMachine
  have known : grid.displacement (gridLowering.reading gridMachine true) 0 (grid.typeOf ⟨1⟩)
      (gridLowering.trailingValues ⟨6⟩) = some (-144) := by
    decide +kernel
  obtain rfl := Option.some.inj (known.symm.trans displaced)
  have base : gridLowering.number gridMachine ⟨1⟩ = 0x2000 := by decide +kernel
  rw [base] at sets
  exact ⟨lines, code, sets⟩

end Module

end SsaAmd64
