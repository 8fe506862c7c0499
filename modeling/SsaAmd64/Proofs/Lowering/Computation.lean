/-
**Computations on integers.**

An operation, a comparison and a conversion load their operands into registers, compute, and store the
low bytes of the result in a home slot. Nothing else changes, and of a bit nothing but zero or one is
stored.

* `Lowering.sets_binary`, `Lowering.sets_compare`, `Lowering.sets_convert`: the code of each kind;
* `Lowering.exactResult`: the result of an instruction as an integer;
* `Lowering.instruction_exact`: the code of every instruction of these kinds stores its low bits.
-/

import SsaAmd64.Lowering.Function
import SsaAmd64.Proofs.Lowering.Operands

namespace SsaAmd64

namespace Lowering

open Asm

variable {lowering : Lowering} {id left right value : ValueId} {bits width : Nat} {type : Ty}
variable {lines loadLeft loadRight : List Line} {machine : Machine} {signed : Bool}

/-! ### Loads and masks -/

/-- Two operands are loaded into `%rax` and `%rcx`. -/
theorem wrote_loads (codeLeft : lowering.loadInt left .rax signed = .ok loadLeft)
    (codeRight : lowering.loadInt right .rcx signed = .ok loadRight)
    (sizedLeft : (lowering.subject.typeOf left).bits? = some bits)
    (sizedRight : (lowering.subject.typeOf right).bits? = some bits)
    (fitsLeft : lowering.number machine left < 2 ^ bits)
    (fitsRight : lowering.number machine right < 2 ^ bits) :
    bits ∈ registerWidths ∧ ∃ next, executeAll (loadLeft ++ loadRight) machine = some next ∧
      next.registers .rax = extended signed (BitVec.ofNat bits (lowering.number machine left)) ∧
      next.registers .rcx = extended signed (BitVec.ofNat bits (lowering.number machine right)) ∧
      Machine.SameExcept [.rax, .rcx, .rdx] machine next := by
  obtain ⟨wide, between, first, inRax, wrote⟩ := wrote_loadInt codeLeft sizedLeft machine
  obtain ⟨_, next, second, inRcx, wrote'⟩ := wrote_loadInt codeRight sizedRight between
  rw [reading_congr wrote (by decide), reading, sizedRight] at inRcx
  rw [reading, sizedLeft] at inRax
  refine ⟨wide, next, executeAll_append_of first second, ?_, ?_, ?_⟩
  · rw [wrote'.registers .rax (by decide), inRax]
    exact ofInt_readingOf wide fitsLeft signed
  · rw [inRcx]
    exact ofInt_readingOf wide fitsRight signed
  · exact (wrote.sameExcept.mono (by simp)).trans (wrote'.sameExcept.mono (by simp))

/-- A result of one bit is cleared above the lowest bit, so that all of its byte is known. -/
theorem executeAll_maskBit (wide : bits ∈ registerWidths) (sized : type.bits? = some bits)
    (machine : Machine) :
    ∃ next, executeAll (maskBit type) machine = some next ∧
      ((next.registers .rax).setWidth (Width.holding bits).bits).toNat =
        ((machine.registers .rax).setWidth bits).toNat ∧
      Machine.SameExcept [.rax] machine next := by
  by_cases bit : type = .int 1
  · subst bit
    obtain rfl := Option.some.inj sized
    let masked := machine.registers .rax &&& 1
    refine ⟨(machine.setRegister .rax masked).setFlags (some (.ofLogic masked)), ?_, ?_, ?_⟩
    · have read := Machine.read_full machine .rax
      rw [maskBit, if_pos rfl, executeAll_singleton, execute, Machine.arithmetic, read]
      exact Machine.writeResult_full machine .rax masked _
    · rw [Machine.registers_setFlags, Machine.registers_setRegister_self]
      show ((machine.registers .rax &&& 1#64).setWidth 8).toNat = _
      rw [BitVec.toNat_setWidth, BitVec.toNat_setWidth, BitVec.toNat_and]
      show ((machine.registers .rax).toNat &&& 1) % 2 ^ 8 = (machine.registers .rax).toNat % 2 ^ 1
      rw [Nat.and_one_is_mod]
      omega
    · exact ((Machine.SameExcept.refl _ machine).setRegister (by simp) _).setFlags _
  · have several : bits ≠ 1 := by
      rintro rfl
      cases type <;> cases sized
      exact bit rfl
    have whole : (Width.holding bits).bits = bits := (bits_holding wide).resolve_left several
    refine ⟨machine, ?_, ?_, .refl _ machine⟩
    · rw [maskBit, if_neg bit]
      rfl
    · rw [whole]

/-- The low bits of a result are put into a home slot. -/
theorem sets_of_mask {first store : List Line} {before : Machine}
    (done : executeAll first machine = some before)
    (same : Machine.SameExcept [.rax, .rcx, .rdx] machine before)
    (sized : (lowering.subject.typeOf id).bits? = some bits)
    (code : lowering.storeRegister .rax id = .ok store) :
    lowering.Sets machine (first ++ maskBit (lowering.subject.typeOf id) ++ store) id
      ((before.registers .rax).setWidth bits).toNat := by
  obtain ⟨_, _, _, known⟩ := placed_of_storeRegister code
  obtain ⟨wide, _⟩ := wide_of_registerWidth sized known
  obtain ⟨masked, masks, kept, same'⟩ := executeAll_maskBit wide sized before
  refine sets_of_storeRegister (executeAll_append_of done masks)
    (same.trans (same'.mono (by simp))) code fun width fits => ?_
  obtain ⟨_, rfl⟩ := wide_of_registerWidth sized fits
  exact kept

/-! ### The code of each kind -/

theorem operand_eq_ok {slot : Nat} (filled : lowering.subject.operand? id slot = some value) :
    lowering.operand id slot = .ok value := by
  rw [operand, filled]

/-- A binary operation loads its operands, computes in registers and stores the result. -/
theorem code_of_binary {operation : BinaryOp}
    (filled : lowering.subject.operand? id 0 = some left)
    (filled' : lowering.subject.operand? id 1 = some right)
    (code : lowering.binary id operation = .ok lines) :
    ∃ loadLeft loadRight middle store,
      lowering.loadInt left .rax operation.isSigned = .ok loadLeft ∧
      lowering.loadInt right .rcx operation.isSigned = .ok loadRight ∧
      operationLines operation = some middle ∧ lowering.storeRegister .rax id = .ok store ∧
      lines = loadLeft ++ loadRight ++ middle ++ maskBit (lowering.subject.typeOf id) ++ store := by
  rw [binary] at code
  split at code
  case isTrue => cases code
  case isFalse =>
    rw [operand_eq_ok filled, operand_eq_ok filled'] at code
    obtain ⟨_, known, code⟩ := ok_of_bind code
    cases known
    obtain ⟨_, known, code⟩ := ok_of_bind code
    cases known
    obtain ⟨loadLeft, codeLeft, code⟩ := ok_of_bind code
    obtain ⟨loadRight, codeRight, code⟩ := ok_of_bind code
    dsimp only at code
    split at code
    case h_1 => cases code
    case h_2 middle operations =>
      obtain ⟨store, codeStore, code⟩ := ok_of_bind code
      exact ⟨loadLeft, loadRight, middle, store, codeLeft, codeRight, operations, codeStore,
        (Except.ok.inj code).symm⟩

/-- **The code of a binary operation stores its result.** -/
theorem sets_binary {operation : BinaryOp} {result : BitVec bits}
    (filled : lowering.subject.operand? id 0 = some left)
    (filled' : lowering.subject.operand? id 1 = some right)
    (sizedLeft : (lowering.subject.typeOf left).bits? = some bits)
    (sizedRight : (lowering.subject.typeOf right).bits? = some bits)
    (sized : (lowering.subject.typeOf id).bits? = some bits)
    (fitsLeft : lowering.number machine left < 2 ^ bits)
    (fitsRight : lowering.number machine right < 2 ^ bits)
    (code : lowering.binary id operation = .ok lines)
    (evaluated : operation.evaluate (BitVec.ofNat bits (lowering.number machine left))
      (BitVec.ofNat bits (lowering.number machine right)) = some result) :
    lowering.Sets machine lines id result.toNat := by
  obtain ⟨loadLeft, loadRight, middle, store, codeLeft, codeRight, operations, codeStore, rfl⟩ :=
    code_of_binary filled filled' code
  obtain ⟨wide, loaded, loads, inRax, inRcx, same⟩ :=
    wrote_loads codeLeft codeRight sizedLeft sizedRight fitsLeft fitsRight
  obtain ⟨operated, operates, low, same'⟩ :=
    computes_operationLines operations (le_of_registerWidths wide) evaluated inRax inRcx
  rw [← low]
  exact sets_of_mask (executeAll_append_of loads operates) (same.trans (same'.mono (by simp))) sized
    codeStore

/-- **The code of a comparison stores whether it holds.** -/
theorem sets_compare {predicate : Predicate}
    (filled : lowering.subject.operand? id 0 = some left)
    (filled' : lowering.subject.operand? id 1 = some right)
    (sizedLeft : (lowering.subject.typeOf left).bits? = some bits)
    (sizedRight : (lowering.subject.typeOf right).bits? = some bits)
    (typed : lowering.subject.typeOf id = .int 1)
    (fitsLeft : lowering.number machine left < 2 ^ bits)
    (fitsRight : lowering.number machine right < 2 ^ bits)
    (code : lowering.compare id predicate = .ok lines) :
    lowering.Sets machine lines id
      (predicate.holds (BitVec.ofNat bits (lowering.number machine left))
        (BitVec.ofNat bits (lowering.number machine right))).toNat := by
  rw [compare, operand_eq_ok filled, operand_eq_ok filled'] at code
  obtain ⟨_, known, code⟩ := ok_of_bind code
  cases known
  obtain ⟨_, known, code⟩ := ok_of_bind code
  cases known
  obtain ⟨loadLeft, codeLeft, code⟩ := ok_of_bind code
  obtain ⟨loadRight, codeRight, code⟩ := ok_of_bind code
  obtain ⟨store, codeStore, code⟩ := ok_of_bind code
  obtain rfl := Except.ok.inj code
  obtain ⟨wide, loaded, loads, inRax, inRcx, same⟩ :=
    wrote_loads codeLeft codeRight sizedLeft sizedRight fitsLeft fitsRight
  obtain ⟨compared, compares, low, same'⟩ := executeAll_compare predicate loaded
  rw [inRax, inRcx, holds_extended predicate (le_of_registerWidths wide)] at low
  rw [List.append_assoc (_ ++ _) (onRegisters .cmp)]
  refine sets_of_storeRegister (executeAll_append_of loads compares)
    (same.trans (same'.mono (by simp))) codeStore fun width fits => ?_
  obtain rfl : width = .byte := by
    rw [typed] at fits
    exact (wide_of_registerWidth rfl fits).2
  exact low

/-- A conversion loads its operand by its sign, or as it is. -/
theorem code_of_convert {conversion : Conversion} {number : Nat} {result : Int}
    (converts : conversion.exact bits number = some result)
    (filled : lowering.subject.operand? id 0 = some value)
    (code : lowering.convert id conversion type = .ok lines) :
    ∃ load store signed, lowering.loadInt value .rax signed = .ok load ∧
      readingOf signed bits number = result ∧
      lowering.storeRegister .rax id = .ok store ∧ lines = load ++ maskBit type ++ store := by
  rw [convert, operand_eq_ok filled] at code
  obtain ⟨_, known, code⟩ := ok_of_bind code
  cases known
  obtain ⟨conversions, codeConversion, code⟩ := ok_of_bind code
  obtain ⟨store, codeStore, code⟩ := ok_of_bind code
  obtain rfl := Except.ok.inj code
  obtain ⟨signed, plain, same⟩ : ∃ signed, lowering.convertInt value type signed = .ok conversions ∧
      readingOf signed bits number = result := by
    cases conversion
    case sext => exact ⟨true, codeConversion, Option.some.inj converts⟩
    case zext | trunc | bitcast | ptrtoint | inttoptr =>
      exact ⟨false, codeConversion, Option.some.inj converts⟩
    all_goals cases converts
  obtain ⟨_, _, rest⟩ := ok_of_bind plain
  obtain ⟨load, codeLoad, rest⟩ := ok_of_bind rest
  obtain rfl := Except.ok.inj rest
  exact ⟨load, store, signed, codeLoad, same, codeStore, rfl⟩

theorem setWidth_ofInt (narrow : width ≤ 64) (number : Int) :
    (BitVec.ofInt 64 number).setWidth width = BitVec.ofInt width number := by
  refine BitVec.eq_of_toInt_eq ?_
  rw [BitVec.toInt_ofInt, ← BitVec.signExtend_eq_setWidth_of_le _ narrow,
    BitVec.toInt_signExtend_eq_toInt_bmod_of_le _ narrow, BitVec.toInt_ofInt]
  exact Int.bmod_bmod_of_dvd (Nat.pow_dvd_pow 2 narrow)

/-- **The code of a conversion stores the low bits of its operand.** -/
theorem sets_convert {conversion : Conversion} {result : Int}
    (filled : lowering.subject.operand? id 0 = some value)
    (sizedValue : (lowering.subject.typeOf value).bits? = some bits)
    (sized : (lowering.subject.typeOf id).bits? = some width)
    (converts : conversion.exact bits (lowering.number machine value) = some result)
    (code : lowering.convert id conversion (lowering.subject.typeOf id) = .ok lines) :
    lowering.Sets machine lines id (BitVec.ofInt width result).toNat := by
  obtain ⟨load, store, signed, codeLoad, rfl, codeStore, rfl⟩ := code_of_convert converts filled code
  obtain ⟨_, loaded, loads, inRax, wrote⟩ := wrote_loadInt codeLoad sizedValue machine
  obtain ⟨_, _, _, known⟩ := placed_of_storeRegister codeStore
  have narrow := le_of_registerWidths (wide_of_registerWidth sized known).1
  have sets := sets_of_mask loads (wrote.sameExcept.mono (by simp)) sized codeStore
  rw [inRax, setWidth_ofInt narrow, reading, sizedValue] at sets
  exact sets

/-! ### Every computation -/

/-- **The result of an instruction as an integer**, from what its operands stand for, where it has
one. -/
def exactResult (lowering : Lowering) (machine : Machine) (held : Instruction) : Option Int := do
  let left ← held.operand 0
  let bits ← (lowering.subject.typeOf left).bits?
  match held.opcode with
  | .binary operation =>
    let right ← held.operand 1
    operation.exact bits (lowering.number machine left) (lowering.number machine right)
  | .compare predicate =>
    let right ← held.operand 1
    return (predicate.exact bits (lowering.number machine left)
      (lowering.number machine right)).toNat
  | .convert conversion _ => conversion.exact bits (lowering.number machine left)
  | _ => none

variable {held : Instruction} {block : ValueId} {result : Int}

/-- **Lines put the low bits of an integer into the home slot of a value**, as many as its type has. -/
def SetsLow (lowering : Lowering) (machine : Machine) (lines : List Line) (id : ValueId)
    (result : Int) : Prop :=
  ∃ bits, (lowering.subject.typeOf id).bits? = some bits ∧
    lowering.Sets machine lines id (result % patternCount bits).toNat

theorem setsLow_of_sets (sized : (lowering.subject.typeOf id).bits? = some bits)
    (sets : lowering.Sets machine lines id (BitVec.ofInt bits result).toNat) :
    lowering.SetsLow machine lines id result := by
  rw [BitVec.toNat_ofInt] at sets
  exact ⟨bits, sized, sets⟩

/-- What is converted to has bits. -/
theorem bits_of_checkConversion {conversion : Conversion} {source target : Ty} {number : Nat}
    (converts : conversion.exact bits number = some result)
    (checked : RuleContext.checkConversion conversion source target = .ok ()) :
    ∃ width, target.bits? = some width := by
  cases conversion
  case sext | zext | trunc | ptrtoint =>
    obtain ⟨_, _, rest⟩ := ok_of_bind checked
    obtain ⟨width, integer, _⟩ := ok_of_bind rest
    exact ⟨width, congrArg Ty.bits? (RuleContext.of_demandInt integer)⟩
  case bitcast | inttoptr =>
    obtain ⟨_, _, rest⟩ := ok_of_bind checked
    obtain ⟨element, points, _⟩ := ok_of_bind rest
    exact ⟨64, congrArg Ty.bits? (RuleContext.of_demandPointer points)⟩
  all_goals cases converts

section Accepted

variable (found : lowering.subject.instruction? id = some held)
variable (accepted :
  (RuleContext.of lowering.subject lowering.function).checkRules block held = .ok ())
variable (whole : ∀ operand ∈ held.values, lowering.subject.typeOf operand = .int 1 →
  lowering.number machine operand < 2)
variable (filled : held.operand 0 = some left)
variable (sized : (lowering.subject.typeOf left).bits? = some bits)

include whole in
/-- An operand is a number of its bits. -/
theorem number_lt_of_operand {slot : Nat} (filled : held.operand slot = some value)
    (sized : (lowering.subject.typeOf value).bits? = some bits) :
    lowering.number machine value < 2 ^ bits := by
  refine number_lt sized ?_
  rintro rfl
  refine whole value (Module.mem_values_of_operand filled) ?_
  cases typed : lowering.subject.typeOf value <;> rw [typed] at sized <;> cases sized
  rfl

include found accepted whole filled sized

theorem setsLow_binary {operation : BinaryOp} (kind : held.opcode = .binary operation)
    (filled' : held.operand 1 = some right)
    (exact : operation.exact bits (lowering.number machine left) (lowering.number machine right) =
      some result)
    (code : lowering.binary id operation = .ok lines) :
    lowering.SetsLow machine lines id result := by
  have sized' : (lowering.subject.typeOf right).bits? = some bits := by
    obtain ⟨left', right', type, again, again', typed, typed'⟩ :=
      RuleContext.operands_of_binary accepted kind
    obtain rfl := Option.some.inj (filled.symm.trans again)
    obtain rfl := Option.some.inj (filled'.symm.trans again')
    exact (congrArg Ty.bits? (typed'.trans typed.symm)).trans sized
  have fits := number_lt_of_operand whole filled sized
  have fits' := number_lt_of_operand whole filled' sized'
  have first := (Module.operand?_of_instruction? found 0).trans filled
  have second := (Module.operand?_of_instruction? found 1).trans filled'
  obtain ⟨_, _, _, _, load, _⟩ := code_of_binary first second code
  have sized'' : (lowering.subject.typeOf id).bits? = some bits := by
    rw [Module.typeOf_binary found kind filled]
    exact sized
  have positive := pos_of_registerWidths (wrote_loadInt load sized machine).1
  have evaluated := BinaryOp.evaluate_of_exact fits fits' positive exact
  exact setsLow_of_sets sized''
    (sets_binary first second sized sized' sized'' fits fits' code evaluated)

theorem setsLow_compare {predicate : Predicate} (kind : held.opcode = .compare predicate)
    (filled' : held.operand 1 = some right) (code : lowering.compare id predicate = .ok lines) :
    lowering.SetsLow machine lines id
      (predicate.exact bits (lowering.number machine left) (lowering.number machine right)).toNat := by
  have sized' : (lowering.subject.typeOf right).bits? = some bits := by
    obtain ⟨left', right', width, again, again', typed, typed'⟩ :=
      RuleContext.operands_of_compare accepted kind
    obtain rfl := Option.some.inj (filled.symm.trans again)
    obtain rfl := Option.some.inj (filled'.symm.trans again')
    exact (congrArg Ty.bits? (typed'.trans typed.symm)).trans sized
  have fits := number_lt_of_operand whole filled sized
  have fits' := number_lt_of_operand whole filled' sized'
  have typed := Module.typeOf_compare found kind
  have first := (Module.operand?_of_instruction? found 0).trans filled
  have second := (Module.operand?_of_instruction? found 1).trans filled'
  have sets := sets_compare first second sized sized' typed fits fits' code
  rw [Predicate.holds_eq_exact fits fits'] at sets
  refine ⟨1, congrArg Ty.bits? typed, ?_⟩
  generalize predicate.exact bits _ _ = answer at sets ⊢
  cases answer <;> exact sets

omit whole in
theorem setsLow_convert {conversion : Conversion} {target : Ty}
    (kind : held.opcode = .convert conversion target)
    (exact : conversion.exact bits (lowering.number machine left) = some result)
    (code : lowering.convert id conversion target = .ok lines) :
    lowering.SetsLow machine lines id result := by
  obtain rfl := Module.typeOf_convert found kind
  rw [RuleContext.checkRules, kind] at accepted
  obtain ⟨_, _, checked⟩ := ok_of_bind accepted
  obtain ⟨width, sized'⟩ := bits_of_checkConversion exact checked
  have first := (Module.operand?_of_instruction? found 0).trans filled
  exact setsLow_of_sets sized' (sets_convert first sized sized' exact code)

end Accepted

/-- **The code of an accepted computation on integers stores the low bits of its result**, as many as
its type has, and changes nothing else: in the home slot is zero or one if its type is a bit. -/
theorem instruction_exact {before after : Nat}
    (found : lowering.subject.instruction? id = some held)
    (accepted : (RuleContext.of lowering.subject lowering.function).checkRules block held = .ok ())
    (code : lowering.instruction before block id = .ok (lines, after))
    (whole : ∀ operand ∈ held.values, lowering.subject.typeOf operand = .int 1 →
      lowering.number machine operand < 2)
    (exact : lowering.exactResult machine held = some result) :
    lowering.SetsLow machine lines id result := by
  obtain ⟨left, filled, known⟩ := Option.bind_eq_some_iff.mp exact
  obtain ⟨bits, sized, known⟩ := Option.bind_eq_some_iff.mp known
  rw [instruction, Module.opcode?, found, Option.map_some] at code
  cases kind : held.opcode with
  | binary operation =>
    rw [kind] at code known
    obtain ⟨right, filled', known⟩ := Option.bind_eq_some_iff.mp known
    obtain ⟨part, made, same⟩ := ok_of_bind code
    obtain rfl : part = lines := congrArg Prod.fst (Except.ok.inj same)
    exact setsLow_binary found accepted whole filled sized kind filled' known made
  | compare predicate =>
    rw [kind] at code known
    obtain ⟨right, filled', known⟩ := Option.bind_eq_some_iff.mp known
    obtain ⟨part, made, same⟩ := ok_of_bind code
    obtain rfl : part = lines := congrArg Prod.fst (Except.ok.inj same)
    obtain rfl := Option.some.inj known
    exact setsLow_compare found accepted whole filled sized kind filled' made
  | convert conversion target =>
    rw [kind] at code known
    obtain ⟨part, made, same⟩ := ok_of_bind code
    obtain rfl : part = lines := congrArg Prod.fst (Except.ok.inj same)
    exact setsLow_convert found accepted filled sized kind known made
  | _ =>
    rw [kind] at known
    cases known

end Lowering

/-- A bit is compared with zero, both with a sign. -/
def signSteps : List Operation :=
  [.addFunction ⟨[.int 1], .void, false⟩ "f", .addBlock ⟨0⟩ .finish "entry",
    .addLiteral (.ofNat 1 0), .insert ⟨some (.finish ⟨2⟩)⟩ (.compare .slt ⟨1⟩ ⟨3⟩) "negative",
    .insert ⟨some (.finish ⟨2⟩)⟩ (.ret none) ""]

namespace Module

open Asm

def sign : Module := builtBy "sign" signSteps

/-- What the code of the function with the comparison is made from. -/
def signLowering : Lowering where
  printer := Printer.of sign
  options := Options.default
  symbols := Symbols.empty
  function := ⟨0⟩
  frame := ⟨[(⟨1⟩, -1), (⟨4⟩, -2)], [], 2⟩
  plan := ⟨[⟨.integer, .general .rdi, none⟩], none, 0, 0⟩
  labels := [(⟨2⟩, ".L0")]

/-- A machine in this function, where the bit is set. -/
def signMachine : Machine where
  registers := fun register => if register = .rbp then 0x1000 else 0
  memory := fun address => if address = 0xfff then 1 else 0
  flags := none
  symbols := fun _ => 0

/-- A bit that is set is less than zero. -/
theorem instruction_exact_sign : ∃ lines, signLowering.instruction 1 ⟨2⟩ ⟨4⟩ = .ok (lines, 1) ∧
    signLowering.SetsLow signMachine lines ⟨4⟩ 1 := by
  have found : sign.instruction? ⟨4⟩ =
      some ⟨some ⟨2⟩, .compare .slt, [some ⟨1⟩, some ⟨3⟩]⟩ := rfl
  have whole : ∀ operand ∈ [⟨1⟩, ⟨3⟩], sign.typeOf operand = .int 1 →
      signLowering.number signMachine operand < 2 := by
    decide +kernel
  obtain ⟨lines, code⟩ : ∃ lines, signLowering.instruction 1 ⟨2⟩ ⟨4⟩ = .ok (lines, 1) := ⟨_, rfl⟩
  exact ⟨lines, code, Lowering.instruction_exact found rfl code whole (by decide +kernel)⟩

end Module

end SsaAmd64
