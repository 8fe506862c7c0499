/-
**Properties of lines, carried through code.**

Most of the code of an instruction works on registers alone. Besides, it reads home slots, writes
registers into them, and takes addresses of symbols, of slots and of storage. What all these lines
have in common is a property of that code, whatever the property is.

* `Asm.Line.isPlain`, `Asm.Line.stores`: the plain lines, and where a line stores;
* `Asm.Line.isDirect`: the lines without memory operands, the constants of which have been tested;
* `Lowering.Throughout`: a property of all lines;
* `Lowering.Admits`: a property that these lines have;
* `Lowering.Admits.binary` and its siblings: so has the code that is made of them.
-/

import SsaAmd64.Proofs.Lowering.Delivery
import SsaAmd64.Proofs.Lowering.Edges
import SsaAmd64.Proofs.Lowering.Outcome

namespace SsaAmd64

/-! ### Plain lines -/

namespace Asm

/-- The stack pointer, and the registers that a prologue saves. -/
def Register.isReserved : Register → Bool
  | rsp | rbp | rbx | r15 => true
  | _ => false

/-- Whether an operand can be written without touching a reserved register. -/
def Operand.isPlain : Operand → Bool
  | register name _ => !name.isReserved
  | memory _ _ => true
  | immediate _ | relative _ => false

namespace Line

/-- **A line that goes on to the next and writes no reserved register.** -/
def isPlain : Line → Bool
  | mov _ _ target | arithmetic _ _ _ target => target.isPlain
  | movabs _ target | extend _ _ _ target | lea _ target | scale _ _ target | shift _ _ target
  | negate _ target | set _ target | vector _ _ target => !target.isReserved
  | cqto | divide _ _ _ => true
  | _ => false

/-- **Where a line stores**: base registers, displacements and numbers of bytes. -/
def stores : Line → List (Register × Int × Nat)
  | mov width _ (.memory base displacement) | arithmetic _ width _ (.memory base displacement) =>
    [(base, displacement, width.bytes)]
  | _ => []

/-- A line that fills memory when the program is loaded. -/
def isData : Line → Bool
  | ascii _ | data _ _ | bytes _ | address _ | zero _ => true
  | _ => false

/-- A plain line that carries no name and stores nothing. -/
def isSilent (line : Line) : Bool :=
  line.isPlain && line.names.isEmpty && line.stores.isEmpty

end Line

/-- Whether an operand is a register, named at a width, or a constant that fits. -/
def Operand.isDirect (width : Width) : Operand → Bool
  | register _ named => named = width
  | immediate value => fits32 value
  | memory _ _ | relative _ => false

namespace Line

/-- **A line without memory operands**, whose constants fit, and whose registers are named at the
width of the line. -/
def isDirect : Line → Bool
  | mov width source (.register _ named) | arithmetic _ width source (.register _ named) =>
    named = width && source.isDirect width
  | mov .. | arithmetic .. | extend .. => false
  | lea (.relative _) _ => true
  | lea .. => false
  | scale factor _ _ => fits32 factor
  | divide _ width source => source.isDirect width
  | _ => true

/-- A plain line that works on registers alone. -/
def isQuiet (line : Line) : Bool :=
  line.isSilent && line.isDirect

end Line

end Asm

theorem Convention.isReserved_of_mem_argumentRegisters {convention : Convention}
    {register : Asm.Register} (member : register ∈ convention.argumentRegisters) :
    register.isReserved = false := by
  have free : ∀ register ∈ convention.argumentRegisters, register.isReserved = false := by
    cases convention <;> decide +kernel
  exact free register member

theorem Convention.isReserved_hiddenRegister (convention : Convention) :
    convention.hiddenRegister.isReserved = false := by
  cases convention <;> rfl

namespace Lowering

open Asm

/-- **A property of all lines.** -/
def Throughout (holds : Line → Prop) (lines : List Line) : Prop :=
  ∀ line ∈ lines, holds line

/-- **A property of the lines that most code is made of**: quiet lines, and those that read a home
slot, write a register into one, or take an address. -/
structure Admits (lowering : Lowering) (holds : Line → Prop) : Prop where
  quiet : ∀ {line : Line}, line.isQuiet = true → holds line
  symbol : ∀ {register : Register}, register.isReserved = false → ∀ id : ValueId,
    holds (.lea (.relative (lowering.symbols.symbol id)) register)
  read : ∀ {id : ValueId} {start : Int} {register : Register}, lowering.slot id = .ok start →
    register.isReserved = false → ∀ (signed : Bool) (width : Width),
      holds (.extend signed width (.memory .rbp start) register)
  write : ∀ {id : ValueId} {start : Int} {width : Width}, lowering.slot id = .ok start →
    (lowering.subject.typeOf id).size = .ok width.bytes → ∀ register : Register,
      holds (.mov width (.register register width) (.memory .rbp start))
  slot : ∀ {id : ValueId} {start : Int} {register : Register}, lowering.slot id = .ok start →
    register.isReserved = false → holds (.lea (.memory .rbp start) register)
  storage : ∀ {id : ValueId} {start : Int}, lowering.frame.storage? id = some start →
    holds (.lea (.memory .rbp start) .rax)

variable {lowering : Lowering} {holds : Line → Prop} {id value : ValueId} {register : Register}
variable {start : Int} {type : Ty} {first second lines : List Line}

theorem throughout_nil : Throughout holds [] :=
  List.forall_mem_nil _

theorem throughout_cons {line : Line} :
    Throughout holds (line :: lines) ↔ holds line ∧ Throughout holds lines :=
  List.forall_mem_cons

theorem throughout_singleton {line : Line} : Throughout holds [line] ↔ holds line :=
  List.forall_mem_singleton

theorem throughout_append : Throughout holds (first ++ second) ↔
    Throughout holds first ∧ Throughout holds second :=
  List.forall_mem_append

theorem throughout_flatten {parts : List (List Line)}
    (each : ∀ part ∈ parts, Throughout holds part) : Throughout holds parts.flatten := by
  intro line member
  obtain ⟨part, listed, inside⟩ := List.mem_flatten.mp member
  exact each part listed line inside

theorem throughout_flatMap {α : Type} {elements : List α} {part : α → List Line}
    (each : ∀ element ∈ elements, Throughout holds (part element)) :
    Throughout holds (elements.flatMap part) := by
  intro line member
  obtain ⟨element, listed, inside⟩ := List.mem_flatMap.mp member
  exact each element listed line inside

/-! ### Sources -/

/-- The symbol that a value is read from is that of the value. -/
theorem source_symbol {symbol : String} (source : lowering.source value = .ok (.symbol symbol)) :
    symbol = lowering.symbols.symbol value := by
  rw [Lowering.source] at source
  split at source
  case h_1 => cases source
  case h_2 | h_3 => exact (Source.symbol.inj (Except.ok.inj source)).symm
  case h_4 => cases source
  case h_5 =>
    obtain ⟨_, _, other⟩ := ok_of_map source
    cases other

theorem slot_of_source (found : lowering.source value = .ok (.slot start)) :
    lowering.slot value = .ok start := by
  rw [Lowering.source] at found
  split at found
  case h_5 =>
    obtain ⟨_, home, same⟩ := ok_of_map found
    rw [home, Source.slot.inj same]
  all_goals cases found

/-! ### Places of arguments -/

section Plans

variable {convention : Convention} {values : List ValueId} {typeOf : ValueId → Ty} {result : Ty}
variable {plan : CallPlan}

/-- Arguments are put into the area that their call reserves. -/
theorem inside_of_plan (planned : convention.plan (values.map typeOf) result = .ok plan) :
    ∀ entry ∈ values.zip plan.arguments, ∀ range ∈ entry.2.ranges (typeOf entry.1).bytes,
      range.1 + range.2 ≤ plan.stackSize := by
  intro entry member range within
  refine (Convention.distinct_of_plan planned).inside range ?_
  rw [occupied, List.zip_map_left, List.flatMap_map]
  exact List.mem_flatMap.mpr ⟨entry, member, within⟩

/-- No argument is put into a reserved register. -/
theorem free_of_plan {types : List Ty} (planned : convention.plan types result = .ok plan)
    (values : List ValueId) : ∀ entry ∈ values.zip plan.arguments, ∀ register ∈ entry.2.registers,
      register.isReserved = false := fun entry member _ within =>
  Convention.isReserved_of_mem_argumentRegisters
    ((Convention.distinct_of_plan planned).registers entry.2 (List.of_mem_zip member).2 within)

end Plans

namespace Admits

variable (admits : lowering.Admits holds)

include admits

theorem of_quiet (lines : List Line) (quiet : lines.all Line.isQuiet = true) :
    Throughout holds lines :=
  fun line member => admits.quiet (List.all_eq_true.mp quiet line member)

/-! ### Registers -/

/-- A constant that does not fit is moved as a whole. -/
theorem loadImmediate (free : register.isReserved = false) (constant : Int) :
    Throughout holds [loadImmediate constant register] := by
  refine admits.of_quiet _ ?_
  rw [Lowering.loadImmediate]
  split
  case isTrue fits =>
    simpa [Line.isQuiet, Line.isSilent, Line.isPlain, Operand.isPlain, Operand.full, Line.stores, Line.isDirect, Operand.isDirect, free] using fits
  case isFalse =>
    simp [Line.isQuiet, Line.isSilent, Line.isPlain, Line.stores, Line.isDirect, free]

theorem maskBit (type : Ty) : Throughout holds (maskBit type) := by
  rw [Lowering.maskBit]
  split <;> exact admits.of_quiet _ rfl

theorem operationLines {operation : BinaryOp} (found : operationLines operation = some lines) :
    Throughout holds lines := by
  cases operation <;> cases found <;> exact admits.of_quiet _ rfl

theorem addConstant (constant : Int) : Throughout holds (addConstant constant) := by
  rw [Lowering.addConstant]
  split
  case isTrue => exact throughout_nil
  case isFalse =>
    split
    case isTrue fits =>
      refine admits.of_quiet _ ?_
      simpa [Line.isQuiet, Line.isDirect, Operand.full, Operand.isDirect] using ⟨rfl, fits⟩
    case isFalse => exact admits.of_quiet _ rfl

/-! ### Values -/

theorem loadInt (free : register.isReserved = false) (value : ValueId) (signed : Bool) :
    Ensures (Throughout holds) (lowering.loadInt value register signed) := by
  refine (Ensures.trivial _).bind fun source found _ => ?_
  cases source with
  | symbol symbol =>
    rw [source_symbol found]
    exact .of_ok (throughout_singleton.mpr (admits.symbol free value))
  | literal literal =>
    exact (Ensures.trivial _).bind fun width _ _ => .of_ok (admits.loadImmediate free _)
  | slot displacement =>
    refine (Ensures.trivial _).bind fun width _ _ => .of_ok ?_
    refine throughout_cons.mpr ⟨admits.read (slot_of_source found) free _ _, ?_⟩
    split
    · refine admits.of_quiet _ ?_
      simp [Line.isQuiet, Line.isSilent, Line.isPlain, Line.stores, Line.isDirect, free]
    · exact throughout_nil

theorem storeRegister (register : Register) (value : ValueId) :
    Ensures (Throughout holds) (lowering.storeRegister register value) := by
  refine (Ensures.trivial _).bind fun start home _ => ?_
  refine (Ensures.trivial _).bind fun width wide _ => .of_ok ?_
  exact throughout_singleton.mpr (admits.write home (size_of_registerWidth wide) register)

/-! ### Instructions -/

theorem alloc : Ensures (Throughout holds) (lowering.alloc id) := by
  rw [Lowering.alloc]
  split
  case h_1 displacement found =>
    refine (admits.storeRegister .rax id).bind fun lines _ stored => .of_ok ?_
    exact throughout_cons.mpr ⟨admits.storage found, stored⟩
  case h_2 => exact .of_error

theorem binary (operation : BinaryOp) :
    Ensures (Throughout holds) (lowering.binary id operation) := by
  rw [Lowering.binary]
  dsimp only
  split
  · exact .of_error
  · refine (Ensures.trivial _).bind fun left _ _ => ?_
    refine (Ensures.trivial _).bind fun right _ _ => ?_
    refine (admits.loadInt rfl left _).bind fun one _ loaded => ?_
    refine (admits.loadInt rfl right _).bind fun other _ loaded' => ?_
    split
    · exact .of_error
    · rename_i lines found
      refine (admits.storeRegister .rax id).bind fun store _ stored => .of_ok ?_
      have loads := throughout_append.mpr ⟨loaded, loaded'⟩
      have result := throughout_append.mpr ⟨loads, admits.operationLines found⟩
      exact throughout_append.mpr
        ⟨throughout_append.mpr ⟨result, admits.maskBit _⟩, stored⟩

theorem compare (predicate : Predicate) :
    Ensures (Throughout holds) (lowering.compare id predicate) := by
  refine (Ensures.trivial _).bind fun left _ _ => ?_
  refine (Ensures.trivial _).bind fun right _ _ => ?_
  refine (admits.loadInt rfl left _).bind fun one _ loaded => ?_
  refine (admits.loadInt rfl right _).bind fun other _ loaded' => ?_
  refine (admits.storeRegister .rax id).bind fun store _ stored => .of_ok ?_
  have loads := throughout_append.mpr ⟨loaded, loaded'⟩
  have flags := throughout_append.mpr ⟨loads, admits.of_quiet (onRegisters .cmp) rfl⟩
  exact throughout_append.mpr
    ⟨throughout_append.mpr ⟨flags, admits.of_quiet [_] rfl⟩, stored⟩

theorem convertInt (value : ValueId) (type : Ty) (signed : Bool) :
    Ensures (Throughout holds) (lowering.convertInt value type signed) := by
  refine (Ensures.trivial _).bind fun width _ _ => ?_
  refine (admits.loadInt rfl value signed).bind fun lines _ loaded => .of_ok ?_
  exact throughout_append.mpr ⟨loaded, admits.maskBit _⟩

theorem convertFloat (free : register.isReserved = false) (value : ValueId)
    (operation : VectorConversion) :
    Ensures (Throughout holds) (lowering.convertFloat value operation register) := by
  refine (admits.loadInt rfl value false).bind fun lines _ loaded => .of_ok ?_
  refine throughout_append.mpr ⟨loaded, admits.of_quiet _ ?_⟩
  cases register <;> first | rfl | cases free

theorem conversionLines (value : ValueId) (conversion : Conversion) (type : Ty) :
    Ensures (Throughout holds) (lowering.conversionLines id value conversion type) := by
  cases conversion with
  | sext | zext | trunc | bitcast | ptrtoint | inttoptr => exact admits.convertInt value type _
  | fext | ftrunc =>
    refine (admits.convertFloat rfl value _).bind fun lines _ converted => .of_ok ?_
    exact throughout_append.mpr ⟨converted, admits.of_quiet _ rfl⟩
  | ftoui | ftosi =>
    rw [Lowering.conversionLines]
    split
    · exact .of_error
    · refine (admits.convertFloat rfl value _).bind fun lines _ converted => .of_ok ?_
      exact throughout_append.mpr ⟨converted, admits.maskBit _⟩
  | uitof | sitof =>
    rw [Lowering.conversionLines]
    split
    · exact .of_error
    · refine (admits.loadInt rfl value _).bind fun lines _ loaded => .of_ok ?_
      exact throughout_append.mpr ⟨loaded, admits.of_quiet _ rfl⟩

theorem convert (conversion : Conversion) (type : Ty) :
    Ensures (Throughout holds) (lowering.convert id conversion type) := by
  refine (Ensures.trivial _).bind fun value _ _ => ?_
  refine (admits.conversionLines value conversion type).bind fun lines _ converted => ?_
  refine (admits.storeRegister .rax id).bind fun store _ stored => .of_ok ?_
  exact throughout_append.mpr ⟨converted, stored⟩

/-! ### Addresses -/

/-- A stride that does not fit goes through a register. -/
theorem addScaled (index : ValueId) (stride : Int) :
    Ensures (Throughout holds) (lowering.addScaled index stride) := by
  refine (admits.loadInt rfl index true).bind fun load _ loaded => .of_ok ?_
  refine throughout_append.mpr
    ⟨throughout_append.mpr ⟨loaded, ?_⟩, admits.of_quiet _ rfl⟩
  split
  case isTrue => exact throughout_nil
  case isFalse =>
    split
    case isTrue fits =>
      refine admits.of_quiet _ ?_
      simpa [Line.isQuiet, Line.isDirect] using ⟨rfl, fits⟩
    case isFalse => exact admits.of_quiet _ rfl

theorem elementStep (index : ValueId) (constant : Option Int) (element : Ty) :
    Ensures (fun step => Throughout holds step.lines)
      (lowering.elementStep index constant element) := by
  refine (Ensures.trivial _).bind fun extent _ _ => ?_
  cases constant with
  | some value => exact .of_ok throughout_nil
  | none => exact (admits.addScaled index _).bind fun lines _ scaled => .of_ok scaled

omit admits in
/-- A field adds a constant only. -/
theorem fieldStep (constant : Option Int) (packed : Bool) (fields : List Ty) :
    Ensures (fun step => Throughout holds step.lines) (fieldStep id constant packed fields) := by
  cases constant with
  | none => exact .of_error
  | some value =>
    rw [Lowering.fieldStep]
    split
    · exact .of_error
    · split
      · exact (Ensures.trivial _).bind fun offset _ _ => .of_ok throughout_nil
      · exact .of_error

theorem addressStep (index : ValueId) (type : Ty) :
    Ensures (fun step => Throughout holds step.lines) (lowering.addressStep id index type) := by
  refine (Ensures.trivial _).bind fun source _ _ => ?_
  split
  · exact admits.elementStep index _ _
  · exact admits.elementStep index _ _
  · exact fieldStep _ _ _
  · exact .of_error

theorem addressSteps (indices : List ValueId) (type : Ty) (sum : Int) :
    Ensures (fun steps => Throughout holds steps.1)
      (lowering.addressSteps id type sum indices) := by
  induction indices generalizing type sum with
  | nil => exact .of_ok throughout_nil
  | cons index indices ih =>
    refine (admits.addressStep index type).bind fun step _ stepped => ?_
    refine (ih step.type (signed64 (sum + step.constant))).bind fun steps _ later => .of_ok ?_
    exact throughout_append.mpr ⟨stepped, later⟩

theorem gep : Ensures (Throughout holds) (lowering.gep id) := by
  refine (Ensures.trivial _).bind fun base _ _ => ?_
  refine (admits.loadInt rfl base false).bind fun load _ loaded => ?_
  refine (admits.addressSteps _ _ _).bind fun steps _ stepped => ?_
  refine (admits.storeRegister .rax id).bind fun store _ stored => .of_ok ?_
  have address := throughout_append.mpr ⟨loaded, stepped⟩
  exact throughout_append.mpr
    ⟨throughout_append.mpr ⟨address, admits.addConstant _⟩, stored⟩

/-! ### Calls -/

/-- The address of a copy is not that of a home slot, so it is left open what holds of it. -/
theorem placeInRegister {plan : ArgumentPlan}
    (free : ∀ register ∈ plan.registers, register.isReserved = false)
    (copies : ∀ copy register, plan.copy = some copy → register.isReserved = false →
      holds (.lea (.memory .rsp (signed64 copy)) register)) :
    Ensures (Throughout holds) (lowering.placeInRegister value plan) := by
  rw [ArgumentPlan.registers] at free
  rw [Lowering.placeInRegister]
  split
  case h_1 copy register copied place =>
    rw [place] at free
    exact .of_ok (throughout_singleton.mpr
      (copies copy register copied (free register (List.mem_singleton.mpr rfl))))
  case h_2 register _ place =>
    rw [place] at free
    exact admits.loadInt (free register (List.mem_singleton.mpr rfl)) value false
  case h_3 register companion _ place =>
    rw [place] at free
    obtain ⟨vector, others⟩ := List.forall_mem_cons.mp free
    refine (admits.loadInt rfl value false).bind fun lines _ loaded => .of_ok ?_
    refine throughout_append.mpr ⟨loaded, admits.of_quiet _ ?_⟩
    have copies : ∀ register : Register, register.isReserved = false →
        Line.isQuiet (.mov .quad (.full .rax) (.full register)) = true := by
      intro register free
      simp [Line.isQuiet, Line.isSilent, Line.isPlain, Operand.isPlain, Operand.full, Line.stores, Line.isDirect, Operand.isDirect, free]
    rw [List.all_cons, List.all_map, Bool.and_eq_true]
    exact ⟨copies register vector,
      List.all_eq_true.mpr fun other member => copies other (others other member)⟩
  case h_4 => exact .of_ok throughout_nil

theorem passResultAddress {plan : CallPlan} :
    Ensures (Throughout holds) (lowering.passResultAddress id plan) := by
  rw [Lowering.passResultAddress]
  split
  · refine (Ensures.trivial _).bind fun start home _ => .of_ok ?_
    exact throughout_singleton.mpr
      (admits.slot home (Convention.isReserved_hiddenRegister lowering.convention))
  · exact .of_ok throughout_nil

theorem storeResult {plan : CallPlan} :
    Ensures (Throughout holds) (lowering.storeResult id plan) := by
  rw [Lowering.storeResult]
  split
  · split
    · exact admits.storeRegister .rax id
    · refine (admits.storeRegister .rax id).bind fun lines _ stored => .of_ok ?_
      exact throughout_append.mpr ⟨admits.of_quiet [_] rfl, stored⟩
    · exact .of_ok throughout_nil
  · exact .of_ok throughout_nil

/-- System V has no more than eight vector registers to count. -/
theorem passVectorCount {types : List Ty} {result : Ty} {plan : CallPlan} (variadic : Bool)
    (planned : lowering.convention.plan types result = .ok plan) :
    Throughout holds (lowering.passVectorCount variadic plan) := by
  rw [Lowering.passVectorCount]
  split
  case isFalse => exact throughout_nil
  case isTrue told =>
    have convention : lowering.convention = .systemV := by
      simpa using (Bool.and_eq_true_iff.mp told).2
    rw [convention] at planned
    obtain ⟨_, _, planned⟩ := ok_of_bind planned
    obtain ⟨⟨plans, last⟩, _, planned⟩ := ok_of_bind planned
    cases planned
    have few : Convention.systemV.vectorCount - last.vector.length ≤ 8 := Nat.sub_le _ _
    have fits : fits32 (Convention.systemV.vectorCount - last.vector.length : Nat) = true := by
      rw [fits32_iff]
      omega
    refine admits.of_quiet _ ?_
    simpa [Line.isQuiet, Line.isDirect, Operand.isDirect] using ⟨rfl, fits⟩

end Admits

end Lowering

end SsaAmd64
