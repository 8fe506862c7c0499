/-
**Values in registers and in slots.**

Between two instructions every value that has been computed is in its home slot, and nothing is kept
in a register. The code that moves values takes them from there, or from the instruction for a
literal.

* `Lowering.Represents`: the slots hold what has been computed;
* `Lowering.Represents.set`: a slot takes a new value, and no other slot changes;
* `Lowering.Represents.bytes_eq`: the bytes of what has been computed;
* `Lowering.executeAll_loadInt`: a value is loaded into a register.
-/

import SsaAmd64.Proofs.Lowering.Operands

namespace SsaAmd64

namespace Lowering

open Asm

variable {lowering : Lowering} {base : BitVec 64} {env : Env} {machine next : Machine}
variable {id value : ValueId} {bits number : Nat} {start : Int} {signed : Bool} {target : Register}
variable {lines : List Line} {changed : List Register}

/-- **Every value that has been computed is in its home slot.** -/
structure Represents (lowering : Lowering) (base : BitVec 64) (env : Env) (machine : Machine) :
    Prop where
  pointer : machine.registers .rbp = base
  values : ∀ {id number}, env id = some number → ∃ bits start, lowering.Home id bits start ∧
    number < 2 ^ bits ∧ machine.load (offset base start) (Width.holding bits).bytes = number

namespace Represents

/-- Slots with the images of numbers hold these numbers. -/
theorem of_bytes (pointer : machine.registers .rbp = base)
    (values : ∀ id number, env id = some number → ∃ bits start, lowering.Home id bits start ∧
      number < 2 ^ bits ∧ machine.memory.bytes (offset base start) (Width.holding bits).bytes =
        Bytes.ofNat (Width.holding bits).bytes number) :
    Represents lowering base env machine := by
  refine ⟨pointer, fun {id number} computed => ?_⟩
  obtain ⟨bits, start, home, fits, image⟩ := values id number computed
  refine ⟨bits, start, home, fits, ?_⟩
  rw [Machine.load, image, Bytes.toNat_ofNat]
  exact Nat.mod_eq_of_lt (Nat.lt_of_lt_of_le fits
    (Nat.pow_le_pow_right Nat.two_pos (le_bits_holding home.wide)))

/-- The slot of a value that has been computed has the image of its number. -/
theorem bytes_of_slot (represents : Represents lowering base env machine)
    (computed : env id = some number) : ∃ bits start, lowering.Home id bits start ∧
      number < 2 ^ bits ∧ machine.memory.bytes (offset base start) (Width.holding bits).bytes =
        Bytes.ofNat (Width.holding bits).bytes number := by
  obtain ⟨bits, start, home, fits, loaded⟩ := represents.values computed
  refine ⟨bits, start, home, fits, ?_⟩
  rw [machine.bytes_eq_ofNat, loaded]

theorem sameExcept (represents : Represents lowering base env machine)
    (same : Machine.SameExcept changed machine next) (kept : .rbp ∉ changed) :
    Represents lowering base env next := by
  constructor
  · rw [same.registers .rbp kept, represents.pointer]
  · intro id number computed
    obtain ⟨bits, start, home, fits, loaded⟩ := represents.values computed
    refine ⟨bits, start, home, fits, ?_⟩
    rw [Machine.load_congr same.memory, loaded]

/-- **A slot takes a value, and no other slot changes.** -/
theorem set (represents : Represents lowering base env machine) (setting : lowering.Integral)
    (home : lowering.Home id bits start) (fits : number < 2 ^ bits)
    (kept : next.registers .rbp = machine.registers .rbp)
    (stored : next.memory =
      (machine.store (offset base start) (Width.holding bits).bytes number).memory) :
    Represents lowering base (env.set id number) next := by
  constructor
  · rw [kept, represents.pointer]
  · intro other number' computed
    by_cases same : other = id
    · subst same
      rw [Env.set, if_pos rfl] at computed
      obtain rfl := Option.some.inj computed
      refine ⟨bits, start, home, fits, ?_⟩
      have short := bytes_holding_le bits
      rw [Machine.load_congr stored, Machine.load_store_self _ _ _ (Nat.le_trans short (by decide))]
      refine Nat.mod_eq_of_lt (Nat.lt_of_lt_of_le fits ?_)
      exact Nat.pow_le_pow_right Nat.two_pos (le_bits_holding home.wide)
    · rw [Env.set, if_neg same] at computed
      obtain ⟨bits', start', home', fits', loaded⟩ := represents.values computed
      refine ⟨bits', start', home', fits', ?_⟩
      rw [Machine.load_congr stored,
        Machine.load_store_of_apart _ (home.apart home' setting (Ne.symm same) base), loaded]

end Represents

/-! ### Operands -/

/-- **Where an operand is found**: in the instruction, or in its home slot. -/
inductive Found (lowering : Lowering) (base : BitVec 64) (machine : Machine) (id : ValueId)
    (bits number : Nat) : Prop
  | literal (inRange : number < patternCount (min bits 128)) :
    lowering.source id = .ok (.literal (.int bits number inRange)) →
    Found lowering base machine id bits number
  | slot (start : Int) : lowering.Home id bits start → lowering.source id = .ok (.slot start) →
    machine.load (offset base start) (Width.holding bits).bytes = number →
    Found lowering base machine id bits number

theorem source_of_home (home : lowering.Home id bits start)
    (computed : lowering.subject.literal? id = none) : lowering.source id = .ok (.slot start) := by
  have typed := home.typed
  have slot : lowering.slot id = .ok start := by
    rw [Lowering.slot, home.slot]
  rw [source, slot]
  cases content : lowering.subject.content? id with
  | none => rfl
  | some held =>
    cases held with
    | literal literal =>
      rw [Module.literal?, content] at computed
      cases computed
    | global held =>
      rw [Module.typeOf_global (by rw [Module.global?, content])] at typed
      cases typed
    | function held =>
      rw [Module.typeOf_function (by rw [Module.function?, content])] at typed
      cases typed
    | block held =>
      rw [Module.typeOf_block (by rw [Module.block?, content])] at typed
      cases typed
    | parameter held => rfl
    | instruction held => rfl

/-- **An operand with a value is found where the value is.** -/
theorem Represents.found (represents : Represents lowering base env machine)
    (computed : lowering.subject.valueIn env id = some number)
    (typed : lowering.subject.typeOf id = .int bits) (wide : bits ∈ registerWidths) :
    number < 2 ^ bits ∧ Found lowering base machine id bits number := by
  rw [Module.valueIn] at computed
  split at computed
  case h_1 literal known =>
    have content : lowering.subject.content? id = some (.literal literal) := by
      rw [Module.literal?] at known
      split at known
      case h_1 content => rw [content, Option.some.inj known]
      case h_2 => cases known
    have type := (Module.typeOf_literal known).symm.trans typed
    cases literal with
    | int width value inRange =>
      cases type
      obtain rfl := Option.some.inj computed
      have narrow : min bits 128 = bits := by
        have := le_of_registerWidths wide
        omega
      refine ⟨?_, .literal inRange ?_⟩
      · rw [narrow] at inRange
        exact inRange
      · rw [source, content]
    | float => cases computed
    | bytes => cases computed
  case h_2 known =>
    obtain ⟨bits', start, home, fits, loaded⟩ := represents.values computed
    have same : bits' = bits := by
      have type := home.typed.symm.trans typed
      cases type
      rfl
    subst same
    exact ⟨fits, .slot start home (source_of_home home known) loaded⟩

/-- **The bytes of a value that has been computed**, wherever it is read from. -/
theorem Represents.bytes_eq (represents : Represents lowering base env machine) {source : Source}
    (computed : lowering.subject.valueIn env id = some number)
    (typed : lowering.subject.typeOf id = .int bits) (wide : bits ∈ registerWidths)
    (known : lowering.source id = .ok source) :
    source.bytes machine (Width.holding bits).bytes =
      Bytes.ofNat (Width.holding bits).bytes number := by
  cases (represents.found computed typed wide).2 with
  | literal inRange known' =>
    obtain rfl := Except.ok.inj (known.symm.trans known')
    rfl
  | slot start home known' loaded =>
    obtain rfl := Except.ok.inj (known.symm.trans known')
    rw [Source.bytes, represents.pointer, machine.bytes_eq_ofNat, loaded]

/-! ### Loads -/

/-- A value that has been computed stands for its number. -/
theorem Represents.number_eq (represents : Represents lowering base env machine)
    (computed : lowering.subject.valueIn env id = some number)
    (typed : lowering.subject.typeOf id = .int bits) (wide : bits ∈ registerWidths) :
    lowering.number machine id = number := by
  cases (represents.found computed typed wide).2 with
  | literal inRange source =>
    rw [Lowering.number, source]
    rfl
  | slot start home source loaded =>
    rw [number_of_slot source (typed ▸ size_int wide), represents.pointer, loaded]

/-- **A value is loaded into all of a register, extended by its sign or by zeros.** -/
theorem executeAll_loadInt (represents : Represents lowering base env machine)
    (code : lowering.loadInt id target signed = .ok lines)
    (computed : lowering.subject.valueIn env id = some number)
    (typed : lowering.subject.typeOf id = .int bits) (wide : bits ∈ registerWidths) :
    ∃ next, executeAll lines machine = some next ∧
      next.registers target = extended signed (BitVec.ofNat bits number) ∧
      Machine.SameExcept [target] machine next := by
  obtain ⟨fits, _⟩ := represents.found computed typed wide
  have sized : (lowering.subject.typeOf id).bits? = some bits := by
    rw [typed]
    rfl
  obtain ⟨_, next, ran, value, wrote⟩ := wrote_loadInt code sized machine
  refine ⟨next, ran, ?_, wrote.sameExcept⟩
  rw [value, reading, sized, represents.number_eq computed typed wide]
  exact ofInt_readingOf wide fits signed

end Lowering

end SsaAmd64
