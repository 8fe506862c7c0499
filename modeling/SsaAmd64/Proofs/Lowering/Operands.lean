/-
**Operands as numbers.**

Wherever a value is read from, its bits stand for a number. The code that loads a value into a register
extends the number by zeros or by its sign, and changes nothing else.

* `Literal.Stands`: the number that a literal stands for;
* `Lowering.number`, `Lowering.reading`: what a value stands for in a state of the machine;
* `Lowering.wrote_loadInt`: a value is loaded into a register;
* `Lowering.Sets`, `Lowering.sets_of_storeRegister`: a number is stored in a home slot.
-/

import SsaAmd64.Proofs.Lowering.Homes
import SsaAmd64.Proofs.Lowering.Places
import SsaAmd64.Proofs.Machine.Arithmetic
import SsaAmd64.Proofs.Semantics.Exact

namespace SsaAmd64

open Asm

/-- How many bits integers and pointers have. -/
def Ty.bits? : Ty → Option Nat
  | .int width => some width
  | .pointer _ => some 64
  | _ => none

/-! ### Numbers and their readings -/

section Readings

variable {bits number : Nat}

/-- A word is not extended. -/
theorem extended_eq (signed : Bool) (value : BitVec 64) : extended signed value = value := by
  have same := setWidth_extended (Nat.le_refl 64) signed value
  rwa [BitVec.setWidth_eq] at same

/-- The word that a number is read as is the extension of its bits. -/
theorem ofInt_readingOf (wide : bits ∈ registerWidths) (fits : number < 2 ^ bits) (signed : Bool) :
    BitVec.ofInt 64 (readingOf signed bits number) = extended signed (BitVec.ofNat bits number) := by
  have narrow := le_of_registerWidths wide
  cases signed with
  | false =>
    refine BitVec.eq_of_toNat_eq ?_
    show (BitVec.ofInt 64 (number : Int)).toNat = _
    rw [toNat_extended narrow, BitVec.ofInt_natCast, BitVec.toNat_ofNat, BitVec.toNat_ofNat,
      Nat.mod_eq_of_lt fits,
      Nat.mod_eq_of_lt (Nat.lt_of_lt_of_le fits (Nat.pow_le_pow_right Nat.two_pos narrow))]
  | true =>
    show BitVec.ofInt 64 (signedReading bits number) = BitVec.ofInt 64 (BitVec.ofNat bits number).toInt
    rw [toInt_ofNat_eq fits]

/-! ### Loads -/

variable {machine next : Machine} {start : Int} {target : Register} {signed : Bool}

/-- A number of some bits is read back from any bytes that have room for them. -/
theorem Bytes.toNat_ofNat_of_lt {size : Nat} (fits : number < patternCount bits)
    (enough : bits ≤ 8 * size) : Bytes.toNat (Bytes.ofNat size number) = number := by
  rw [Bytes.toNat_ofNat]
  exact Nat.mod_eq_of_lt (Nat.lt_of_lt_of_le fits (Nat.pow_le_pow_right Nat.two_pos enough))

/-- **The image of a literal stands for a number of some bits**, in as many bytes as have room for
them. -/
structure Literal.Stands (literal : Literal) (bits number : Nat) : Prop where
  image : ∀ size, bits ≤ 8 * size → Bytes.toNat (literal.image size) = number
  lt : number < patternCount bits

theorem Literal.stands_int (wide : bits ∈ registerWidths)
    (inRange : number < patternCount (min bits 128)) :
    (Literal.int bits number inRange).Stands bits number := by
  have narrow := le_of_registerWidths wide
  have fits : number < patternCount bits := by
    rwa [Nat.min_eq_left (by omega)] at inRange
  exact ⟨fun _ enough => Bytes.toNat_ofNat_of_lt fits enough, fits⟩

/-- A literal is written into the instruction as the word that its number is read as. -/
theorem ofInt_literalWord {literal : Literal} (wide : bits ∈ registerWidths)
    (stands : literal.Stands bits number) (signed : Bool) :
    BitVec.ofInt 64 (Lowering.literalWord literal bits signed) =
      BitVec.ofInt 64 (readingOf signed bits number) := by
  have positive := pos_of_registerWidths wide
  have fits := stands.lt
  rw [Lowering.literalWord, stands.image 8 (le_of_registerWidths wide), readingOf]
  by_cases extends' : signed = true ∧ bits < 64 ∧ number.testBit (bits - 1) = true
  · obtain ⟨rfl, few, negative⟩ := extends'
    rw [if_pos ⟨rfl, few, negative⟩, if_pos rfl, signedReading_eq fits,
      bmod_eq_of_lt positive fits, if_pos negative]
  · rw [if_neg extends', ofInt_signed64]
    cases signed with
    | false => rfl
    | true =>
      rw [if_pos rfl, signedReading_eq fits]
      by_cases negative : number.testBit (bits - 1) = true
      · obtain rfl : bits = 64 := by
          have narrow := le_of_registerWidths wide
          by_contra other
          exact extends' ⟨rfl, by omega, negative⟩
        exact (ofInt_signed64 number).symm
      · rw [bmod_eq_of_lt positive fits, if_neg negative]

theorem execute_loadImmediate (word : Int) (target : Register) (machine : Machine) :
    execute (Lowering.loadImmediate word target) machine =
      some (machine.setRegister target (BitVec.ofInt 64 word)) := by
  rw [Lowering.loadImmediate]
  split
  · rw [execute]
    exact Machine.write_full machine target _
  · rfl

section Slots

variable (loaded : machine.load (offset (machine.registers .rbp) start)
  (Width.holding bits).bytes = number)

include loaded

theorem lt_of_load : number < 2 ^ (Width.holding bits).bits := by
  have bound := Machine.toNat_bytes_lt (machine.memory.bytes
    (offset (machine.registers .rbp) start) (Width.holding bits).bytes)
  rwa [Memory.length_bytes, ← Machine.load, loaded] at bound

/-- What is in a slot is extended by zeros. -/
theorem wrote_extendZeros (target : Register) :
    ∃ next, executeAll [.extend false (.holding bits) (.memory .rbp start) target] machine =
        some next ∧
      next.registers target = BitVec.ofInt 64 number ∧ machine.Wrote [target] [] next := by
  have value : (BitVec.ofNat (Width.holding bits).bits number).setWidth 64 =
      BitVec.ofInt 64 number := by
    refine BitVec.eq_of_toNat_eq ?_
    rw [BitVec.ofInt_natCast, BitVec.toNat_setWidth, BitVec.toNat_ofNat, BitVec.toNat_ofNat,
      Nat.mod_eq_of_lt (lt_of_load loaded)]
  refine ⟨machine.setRegister target (BitVec.ofInt 64 number), ?_,
    Machine.registers_setRegister_self _ _ _, (Machine.Wrote.refl _ machine).setRegister (by simp) _⟩
  rw [executeAll_singleton, execute, Machine.read, loaded]
  exact congrArg (fun value => some (machine.setRegister target value)) value

/-- What is in a slot is extended by its sign. -/
theorem wrote_extendSign (wide : bits ∈ registerWidths) (several : bits ≠ 1) (target : Register) :
    ∃ next, executeAll [.extend true (.holding bits) (.memory .rbp start) target] machine =
        some next ∧
      next.registers target = BitVec.ofInt 64 (signedReading bits number) ∧
      machine.Wrote [target] [] next := by
  have whole : (Width.holding bits).bits = bits := (bits_holding wide).resolve_left several
  have fits := whole ▸ lt_of_load loaded
  refine ⟨machine.setRegister target (extended true (BitVec.ofNat bits number)), ?_, ?_,
    (Machine.Wrote.refl _ machine).setRegister (by simp) _⟩
  · rw [executeAll_singleton, execute, Machine.read, loaded, if_pos rfl, whole]
    rfl
  · rw [Machine.registers_setRegister_self, ← ofInt_readingOf wide fits]
    rfl

/-- The code that loads from a slot, which for a signed bit is negated afterwards. -/
theorem executeAll_loadSlot (wide : bits ∈ registerWidths) (target : Register) (signed : Bool) :
    ∃ next, executeAll (.extend (signed && !decide (bits = 1)) (.holding bits)
        (.memory .rbp start) target ::
        (if signed && decide (bits = 1) then [.negate .quad target] else [])) machine = some next ∧
      next.registers target = BitVec.ofInt 64 (readingOf signed bits number) ∧
      machine.Wrote [target] [] next := by
  cases signed with
  | false => exact wrote_extendZeros loaded target
  | true =>
    by_cases bit : bits = 1
    · subst bit
      obtain ⟨between, ran, inTarget, wrote⟩ := wrote_extendZeros loaded target
      obtain ⟨next, ran', negated, wrote'⟩ := wrote_negate between target
      refine ⟨next, executeAll_append_of ran ran', ?_, wrote.trans wrote'⟩
      rw [negated, inTarget, ← BitVec.ofInt_neg]
      rfl
    · rw [decide_eq_false bit]
      exact wrote_extendSign loaded wide bit target

end Slots

end Readings

namespace Lowering

variable {lowering : Lowering} {id : ValueId} {machine next before : Machine}
variable {scratch : List Register} {lines first store : List Line} {target : Register}
variable {signed : Bool} {bits : Nat} {source : Source}

/-! ### Values -/

/-- **The number that the bits of a value stand for**: a literal, the bytes of a home slot, or the
address of a symbol. -/
def number (lowering : Lowering) (machine : Machine) (id : ValueId) : Nat :=
  match lowering.source id with
  | .ok (.literal literal) => literal.natValue?.getD 0
  | .ok source => Bytes.toNat (source.bytes machine (Frame.bytesOf lowering.subject id))
  | .error _ => 0

/-- What a value is read as. -/
def reading (lowering : Lowering) (machine : Machine) (signed : Bool) (id : ValueId) : Int :=
  readingOf signed ((lowering.subject.typeOf id).bits?.getD 0) (lowering.number machine id)

/-- Values are as they were while memory and the frame are. -/
theorem number_congr (wrote : machine.Wrote scratch [] next) (kept : .rbp ∉ scratch)
    (id : ValueId) : lowering.number next id = lowering.number machine id := by
  have memory : next.memory = machine.memory := wrote.memory
  unfold number
  split
  case h_2 source _ _ =>
    cases source <;> simp only [Source.bytes, memory, wrote.registers .rbp kept, wrote.symbols]
  all_goals rfl

theorem reading_congr (wrote : machine.Wrote scratch [] next) (kept : .rbp ∉ scratch)
    (signed : Bool) : lowering.reading next signed = lowering.reading machine signed := by
  funext id
  rw [reading, reading, number_congr wrote kept]

theorem size_of_registerWidth {type : Ty} {width : Width}
    (known : lowering.registerWidth type = .ok width) : type.size = .ok width.bytes := by
  obtain ⟨size, sized, known⟩ := ok_of_bind known
  split at known
  case h_1 found =>
    obtain rfl := Except.ok.inj known
    rw [(Width.ofBytes?_eq_some_iff _ _).mp found]
    exact ok_of_mapError sized
  case h_2 => cases known

/-- Integers and pointers that fit registers. -/
theorem wide_of_registerWidth {type : Ty} {width : Width} (sized : type.bits? = some bits)
    (known : lowering.registerWidth type = .ok width) :
    bits ∈ registerWidths ∧ width = .holding bits := by
  have size := size_of_registerWidth known
  cases type with
  | int held =>
    obtain rfl := Option.some.inj sized
    rcases width_of_size size with ⟨rfl, byte⟩ | rfl
    · cases width <;> first | exact ⟨by decide, rfl⟩ | cases byte
    · cases width <;> exact ⟨by decide, rfl⟩
  | pointer element =>
    obtain rfl := Option.some.inj sized
    have eight : 8 = width.bytes := Except.ok.inj size
    cases width <;> first | exact ⟨by decide, rfl⟩ | cases eight
  | _ => cases sized

theorem number_of_slot {start : Int} {count : Nat} (known : lowering.source id = .ok (.slot start))
    (size : (lowering.subject.typeOf id).size = .ok count) (machine : Machine) :
    lowering.number machine id = machine.load (offset (machine.registers .rbp) start) count := by
  rw [number, known, Frame.bytesOf, size]
  rfl

/-- Of the symbols, globals have an address to compute with. -/
theorem pointer_of_symbol {name : String} (known : lowering.source id = .ok (.symbol name))
    (sized : (lowering.subject.typeOf id).bits? = some bits) :
    ∃ element, lowering.subject.typeOf id = .pointer element := by
  rw [Lowering.source] at known
  split at known
  case h_2 held content =>
    have found : lowering.subject.global? id = some held := by
      rw [Module.global?, content]
    exact ⟨_, Module.typeOf_global found⟩
  case h_3 held content =>
    have found : lowering.subject.function? id = some held := by
      rw [Module.function?, content]
    rw [Module.typeOf_function found] at sized
    cases sized
  case h_5 =>
    obtain ⟨_, _, same⟩ := ok_of_map known
    cases same
  all_goals cases known

theorem number_of_symbol {name : String} {element : Ty}
    (known : lowering.source id = .ok (.symbol name))
    (typed : lowering.subject.typeOf id = .pointer element) (machine : Machine) :
    lowering.number machine id = (machine.symbols name).toNat := by
  rw [number, known, Frame.bytesOf, typed]
  show Bytes.toNat (Bytes.ofNat 8 (machine.symbols name).toNat) = _
  rw [Bytes.toNat_ofNat]
  exact Nat.mod_eq_of_lt (machine.symbols name).isLt

/-- **A value is loaded into all of a register, read by its sign or as it is.** -/
theorem wrote_loadInt (code : lowering.loadInt id target signed = .ok lines)
    (sized : (lowering.subject.typeOf id).bits? = some bits) (machine : Machine) :
    bits ∈ registerWidths ∧ ∃ next, executeAll lines machine = some next ∧
      next.registers target = BitVec.ofInt 64 (lowering.reading machine signed id) ∧
      machine.Wrote [target] [] next := by
  rw [reading, sized]
  obtain ⟨source, known, code⟩ := ok_of_bind code
  cases source with
  | literal literal =>
    obtain ⟨width, fits, code⟩ := ok_of_bind code
    obtain rfl := Except.ok.inj code
    obtain ⟨wide, rfl⟩ := wide_of_registerWidth sized fits
    have typed := Module.typeOf_literal (literal?_of_source known)
    rw [typed] at sized
    cases literal with
    | int held value inRange =>
      obtain rfl := Option.some.inj sized
      have same : lowering.number machine id = value := by
        rw [number, known]
        rfl
      refine ⟨wide, _, (executeAll_singleton _ _).trans (execute_loadImmediate _ _ _), ?_,
        (Machine.Wrote.refl _ machine).setRegister (by simp) _⟩
      rw [Machine.registers_setRegister_self, typed, same]
      exact ofInt_literalWord wide (Literal.stands_int wide inRange) signed
    | float | bytes => cases sized
  | slot start =>
    obtain ⟨width, fits, code⟩ := ok_of_bind code
    obtain rfl := Except.ok.inj code
    obtain ⟨wide, rfl⟩ := wide_of_registerWidth sized fits
    have isBit : decide (lowering.subject.typeOf id = .int 1) = decide (bits = 1) := by
      cases typed : lowering.subject.typeOf id <;> rw [typed] at sized <;> cases sized <;> simp
    have loaded := number_of_slot known (size_of_registerWidth fits) machine
    rw [isBit]
    exact ⟨wide, executeAll_loadSlot loaded.symm wide target signed⟩
  | symbol name =>
    obtain rfl := Except.ok.inj code
    obtain ⟨element, typed⟩ := pointer_of_symbol known sized
    rw [typed] at sized
    obtain rfl := Option.some.inj sized
    have address : machine.address? (.relative name) = some (machine.symbols name) := rfl
    obtain ⟨next, ran, value, wrote⟩ := wrote_lea machine address target
    refine ⟨by decide, next, ran, ?_, wrote⟩
    rw [value, number_of_symbol known typed]
    refine Eq.trans ?_ (ofInt_readingOf (by decide) (machine.symbols name).isLt signed).symm
    rw [BitVec.ofNat_toNat, BitVec.setWidth_eq, extended_eq]

/-- Integers of several bits and pointers have no more bytes than bits for them. -/
theorem bytesOf_le (sized : (lowering.subject.typeOf id).bits? = some bits) (several : bits ≠ 1) :
    8 * Frame.bytesOf lowering.subject id ≤ bits := by
  rw [Frame.bytesOf]
  cases known : (lowering.subject.typeOf id).size with
  | error fault => exact Nat.zero_le bits
  | ok size =>
    show 8 * size ≤ bits
    cases typed : lowering.subject.typeOf id with
    | int width =>
      rw [typed] at sized known
      obtain rfl := Option.some.inj sized
      rcases width_of_size known with ⟨bit, _⟩ | whole
      · exact absurd bit several
      · exact Nat.le_of_eq whole.symm
    | pointer element =>
      rw [typed] at sized known
      obtain rfl := Option.some.inj sized
      obtain rfl : 8 = size := Except.ok.inj known
      decide
    | _ =>
      rw [typed] at sized
      cases sized

/-- **A value is a number of its bits**, if a bit is kept as zero or one. -/
theorem number_lt (sized : (lowering.subject.typeOf id).bits? = some bits)
    (bit : bits = 1 → lowering.number machine id < 2) : lowering.number machine id < 2 ^ bits := by
  by_cases single : bits = 1
  · rw [single]
    exact bit single
  · rw [number]
    split
    case h_1 literal known =>
      rw [Module.typeOf_literal (literal?_of_source known)] at sized
      cases literal with
      | int width value inRange =>
        obtain rfl := Option.some.inj sized
        exact Nat.lt_of_lt_of_le inRange (Nat.pow_le_pow_right Nat.two_pos (Nat.min_le_left _ _))
      | float | bytes => cases sized
    case h_2 source _ _ =>
      have bound := Machine.toNat_bytes_lt
        (source.bytes machine (Frame.bytesOf lowering.subject id))
      rw [Source.length_bytes] at bound
      exact Nat.lt_of_lt_of_le bound (Nat.pow_le_pow_right Nat.two_pos (bytesOf_le sized single))
    case h_3 => exact Nat.two_pow_pos bits

/-! ### Home slots -/

/-- **The low bytes of a register are stored in a home slot.** -/
theorem wrote_storeRegister {register : Register} {start : Int} {size : Nat}
    (placed : lowering.Placed id start size)
    (code : lowering.storeRegister register id = .ok lines) (machine : Machine) :
    ∃ next, executeAll lines machine = some next ∧ machine.Wrote [.rax]
      [⟨offset (machine.registers .rbp) start,
        Bytes.ofNat size (machine.registers register).toNat⟩] next := by
  rw [storeRegister, placed.slot_eq] at code
  obtain ⟨_, known, code⟩ := ok_of_bind code
  cases known
  obtain ⟨width, known, code⟩ := ok_of_bind code
  obtain rfl := Except.ok.inj code
  obtain rfl := placed.size_eq (size_of_registerWidth known)
  refine ⟨_, executeAll_singleton _ _, fun _ _ => rfl, rfl, ?_⟩
  show machine.memory.write _ (Bytes.ofNat width.bytes
    ((machine.registers register).setWidth width.bits).toNat) = _
  rw [BitVec.toNat_setWidth]
  exact congrArg _ (Bytes.ofNat_mod _ _)

theorem placed_of_storeRegister {register : Register}
    (code : lowering.storeRegister register id = .ok lines) :
    ∃ start width, lowering.Placed id start (Width.bytes width) ∧
      lowering.registerWidth (lowering.subject.typeOf id) = .ok width := by
  obtain ⟨start, known, code⟩ := ok_of_bind code
  obtain ⟨width, fits, _⟩ := ok_of_bind code
  rw [slot] at known
  split at known
  case h_1 found =>
    obtain rfl := Except.ok.inj known
    exact ⟨_, width, ⟨found, size_of_registerWidth fits⟩, fits⟩
  case h_2 => cases known

/-- **Lines put a number into the home slot of a value.** No other byte of memory changes, and no
register but three. -/
def Sets (lowering : Lowering) (machine : Machine) (lines : List Line) (id : ValueId)
    (value : Nat) : Prop :=
  ∃ next start size, executeAll lines machine = some next ∧ lowering.Placed id start size ∧
    value < 2 ^ (8 * size) ∧
    next.memory = (machine.store (offset (machine.registers .rbp) start) size value).memory ∧
    ∀ register ∉ [Register.rax, .rcx, .rdx],
      next.registers register = machine.registers register

/-- **The low bytes of `%rax` are put into a home slot.** -/
theorem sets_of_storeRegister {value : Nat} (done : executeAll first machine = some before)
    (same : Machine.SameExcept [.rax, .rcx, .rdx] machine before)
    (code : lowering.storeRegister .rax id = .ok store)
    (kept : ∀ width, lowering.registerWidth (lowering.subject.typeOf id) = .ok width →
      ((before.registers .rax).setWidth width.bits).toNat = value) :
    lowering.Sets machine (first ++ store) id value := by
  obtain ⟨start, width, placed, fits⟩ := placed_of_storeRegister code
  obtain ⟨next, ran, wrote⟩ := wrote_storeRegister placed code before
  obtain rfl := kept width fits
  refine ⟨next, start, width.bytes, executeAll_append_of done ran, placed, BitVec.isLt _, ?_, ?_⟩
  · rw [wrote.memory, same.registers .rbp (by decide), same.memory, BitVec.toNat_setWidth]
    exact congrArg _ (Bytes.ofNat_mod _ _).symm
  · intro register outside
    rw [wrote.registers register fun inside => outside (List.mem_singleton.mp inside ▸ by simp),
      same.registers register outside]

end Lowering

end SsaAmd64
