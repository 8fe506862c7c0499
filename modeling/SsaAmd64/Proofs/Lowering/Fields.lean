/-
**Indices into structs.**

An index into a struct is a literal that names a field. Validation and the type of an address read it
as a natural number, and code reads it with its sign. Both find the same field, unless the top bit of
the literal is set: then there is no code.

* `Lowering.signedIndex_eq`: the signed reading of such an index;
* `Lowering.fieldStep_eq`: the code of one;
* `Lowering.type_of_addressStep`, `Lowering.addressSteps_append`: code follows indices to where they
  lead;
* `Lowering.Persists`: computations that do not give up on an index into a struct;
* `Lowering.FieldIndex`: an index into a struct, and the indices around it;
* `Lowering.gep_fields`: all indices into structs of an address computation.
-/

import SsaAmd64.Lowering.Memory
import SsaAmd64.Proofs.Lowering.Prepared
import SsaAmd64.Proofs.Validation.DefinedReads
import SsaAmd64.Proofs.Validation.Indices

namespace SsaAmd64

namespace Lowering

open Asm

variable {lowering : Lowering} {id base index : ValueId} {held : Instruction}
variable {position width value : Nat} {type next middle : Ty} {fields : List Ty} {field : Ty}
variable {before after : List ValueId} {step : AddressStep}

/-! ### One index -/

theorem testBit_eq_false_of_small (many : 64 ≤ width) (small : value < 0x8000000000000000) :
    value.testBit (width - 1) = false := by
  have few : 63 ≤ width - 1 := by omega
  exact Nat.testBit_lt_two_pow (Nat.lt_of_lt_of_le small (Nat.pow_le_pow_right Nat.two_pos few))

/-- **The signed reading of an index that names a field** is the index, unless its top bit is
set. -/
theorem signedIndex_eq (inRange : value < patternCount (min width 128))
    (small : value < 0x8000000000000000) : signedIndex width value =
      if value.testBit (width - 1) then (value : Int) - patternCount width else value := by
  by_cases many : 64 ≤ width
  · have wide : 64 ≤ min (max width 1) 128 := by omega
    have room : value < patternCount (min (max width 1) 128) := by
      rwa [Nat.max_eq_left (by omega)]
    rw [signedIndex, bmod_eq_of_lt (by omega) room, testBit_eq_false_of_small wide small,
      testBit_eq_false_of_small many small, if_neg Bool.false_ne_true]
    exact signed64_of_small _ (by omega) (by omega)
  · have few : patternCount width ≤ 0x8000000000000000 :=
      Nat.pow_le_pow_right Nat.two_pos (by omega : width ≤ 63)
    by_cases empty : width = 0
    · subst empty
      obtain rfl : value = 0 := Nat.lt_one_iff.mp inRange
      rfl
    · have same : min (max width 1) 128 = width := by omega
      rw [Nat.min_eq_left (by omega)] at inRange
      rw [signedIndex, same, bmod_eq_of_lt (by omega) inRange]
      split <;> exact signed64_of_small _ (by omega) (by omega)

/-- **A literal that names a field leads to this field**, unless its top bit is set. -/
theorem fieldStep_eq (inRange : value < patternCount (min width 128))
    (named : fields[value]? = some field) (few : fields.length ≤ 0x8000000000000000)
    (id : ValueId) (packed : Bool) :
    fieldStep id (some (signedIndex width value)) packed fields =
      if value.testBit (width - 1) then unsupported (.structIndex id)
      else do
        let offset ← (fieldOffset packed fields value).mapError .layout
        return ⟨[], signed64 offset, field⟩ := by
  have inside := (List.getElem?_eq_some_iff.mp named).1
  have room : patternCount (min width 128) ≤ patternCount width :=
    Nat.pow_le_pow_right Nat.two_pos (Nat.min_le_left _ _)
  rw [fieldStep, signedIndex_eq inRange (by omega)]
  cases negative : value.testBit (width - 1) with
  | true =>
    rw [if_pos rfl, if_pos rfl]
    exact if_pos (by omega)
  | false =>
    rw [if_neg Bool.false_ne_true, if_neg Bool.false_ne_true, if_neg (by omega),
      Int.toNat_natCast, named]

/-- A literal leads to the field that it names. -/
theorem field_of_literal {m : Module} {inRange : value < patternCount (min width 128)}
    {packed : Bool} (leads : m.StepsTo position (some index) (.struct packed fields) field)
    (isLiteral : m.literal? index = some (.int width value inRange)) :
    fields[value]? = some field := by
  cases leads with
  | field _ _ isLiteral' named =>
    cases isLiteral'.symm.trans isLiteral
    exact named

theorem addressStep_of_literal {inRange : value < patternCount (min width 128)} {packed : Bool}
    (isLiteral : lowering.subject.literal? index = some (.int width value inRange)) :
    lowering.addressStep id index (.struct packed fields) =
      fieldStep id (some (signedIndex width value)) packed fields := by
  rw [addressStep, source_of_literal isLiteral]
  rfl

theorem type_of_elementStep {element : Ty} {constant : Option Int}
    (done : lowering.elementStep index constant element = .ok step) : step.type = element := by
  obtain ⟨extent, _, done⟩ := ok_of_bind done
  cases constant with
  | some number =>
    obtain rfl := Except.ok.inj done
    rfl
  | none =>
    obtain ⟨lines, _, done⟩ := ok_of_bind done
    obtain rfl := Except.ok.inj done
    rfl

/-- **Code follows an index to where it leads.** -/
theorem type_of_addressStep (leads : lowering.subject.StepsTo position (some index) type next)
    (countable : type.isCountable = true) (done : lowering.addressStep id index type = .ok step) :
    step.type = next := by
  cases leads with
  | pointer | array =>
    obtain ⟨source, _, done⟩ := ok_of_bind done
    exact type_of_elementStep done
  | @field _ _ width value inRange packed fields _ isLiteral named =>
    rw [addressStep_of_literal isLiteral,
      fieldStep_eq inRange named (length_le_of_isCountable countable)] at done
    split at done
    case isTrue => cases done
    case isFalse =>
      obtain ⟨offset, _, done⟩ := ok_of_bind done
      obtain rfl := Except.ok.inj done
      rfl

/-! ### Several indices -/

/-- **Code follows indices one part after the other**, the second part from where the first leads. -/
theorem addressSteps_append (leads : lowering.subject.LeadsTo position (before.map some) type middle)
    (countable : type.isCountable = true) (id : ValueId) (sum : Int) (after : List ValueId) :
    lowering.addressSteps id type sum (before ++ after) = do
      let (lines, total) ← lowering.addressSteps id type sum before
      let (others, last) ← lowering.addressSteps id middle total after
      return (lines ++ others, last) := by
  induction before generalizing position type sum with
  | nil =>
    obtain rfl : type = middle := by
      cases leads
      rfl
    show lowering.addressSteps id type sum after =
      lowering.addressSteps id type sum after >>= fun (others, last) => .ok (others, last)
    cases lowering.addressSteps id type sum after <;> rfl
  | cons index before ih =>
    cases leads with
    | step one leads =>
      rw [List.cons_append, addressSteps, addressSteps]
      cases done : lowering.addressStep id index type with
      | error failure => rfl
      | ok step =>
        obtain rfl := type_of_addressStep one countable done
        show (lowering.addressSteps id step.type _ (before ++ after) >>= _) =
          (lowering.addressSteps id step.type _ before >>= _) >>= _
        rw [ih leads (isCountable_of_stepsTo one countable)]
        simp only [bind_assoc, pure_bind, List.append_assoc]

/-! ### Computations that do not give up -/

/-- **A computation that does not give up on an index into a struct.** -/
def Persists {α : Type} (computation : Except Failure α) : Prop :=
  ∀ id, computation ≠ .error (.unsupported (.structIndex id))

namespace Persists

variable {α β : Type}

theorem of_ok {result : α} : Persists (.ok result) :=
  nofun

theorem bind {first : Except Failure α} {rest : α → Except Failure β} (one : Persists first)
    (other : ∀ result, first = .ok result → Persists (rest result)) : Persists (first >>= rest) := by
  intro id failed
  rcases error_of_bind failed with here | ⟨result, done, later⟩
  · exact one id here
  · exact other result done id later

theorem of_layout {computation : Except LayoutError α} : Persists (computation.mapError .layout) := by
  intro id failed
  cases computation <;> cases failed

theorem map {first : Except Failure α} (one : Persists first) (change : α → β) :
    Persists (first.map change) := by
  intro id failed
  cases first with
  | error failure => exact one id (congrArg Except.error (Except.error.inj failed))
  | ok result => cases failed

theorem slot (lowering : Lowering) (id : ValueId) : Persists (lowering.slot id) := by
  rw [Lowering.slot]
  split
  · exact of_ok
  · intro _ failed
    cases failed

theorem source (lowering : Lowering) (id : ValueId) : Persists (lowering.source id) := by
  rw [Lowering.source]
  split
  case h_4 =>
    intro _ failed
    cases failed
  case h_5 => exact (slot lowering id).map Source.slot
  all_goals exact of_ok

theorem registerWidth (lowering : Lowering) (type : Ty) : Persists (lowering.registerWidth type) := by
  refine bind of_layout fun size _ => ?_
  split
  · exact of_ok
  · intro _ failed
    cases failed

theorem loadInt (lowering : Lowering) (id : ValueId) (target : Register) (signed : Bool) :
    Persists (lowering.loadInt id target signed) := by
  refine bind (source lowering id) fun source _ => ?_
  cases source with
  | symbol => exact of_ok
  | literal | slot => exact bind (registerWidth lowering _) fun _ _ => of_ok

theorem storeRegister (lowering : Lowering) (register : Register) (id : ValueId) :
    Persists (lowering.storeRegister register id) :=
  bind (slot lowering id) fun _ _ => bind (registerWidth lowering _) fun _ _ => of_ok

theorem elementStep (lowering : Lowering) (index : ValueId) (constant : Option Int) (element : Ty) :
    Persists (lowering.elementStep index constant element) := by
  refine bind of_layout fun extent _ => ?_
  cases constant with
  | some value => exact of_ok
  | none => exact bind (bind (loadInt lowering _ _ _) fun _ _ => of_ok) fun _ _ => of_ok

end Persists

/-! ### Address computations -/

/-- **An index into a struct**, among indices from a position of the list on: a literal behind indices
that lead to the struct. -/
structure FieldIndex (m : Module) (position : Nat) (type : Ty) (indices : List ValueId) where
  before : List ValueId
  index : ValueId
  after : List ValueId
  packed : Bool
  fields : List Ty
  width : Nat
  value : Nat
  inRange : value < patternCount (min width 128)
  place : indices = before ++ index :: after
  leads : m.LeadsTo position (before.map some) type (.struct packed fields)
  isLiteral : m.literal? index = some (.int width value inRange)

namespace FieldIndex

variable {m : Module} {indices : List ValueId}

/-- Whether the top bit of the literal is set. -/
def isNegative (field : FieldIndex m position type indices) : Bool :=
  field.value.testBit (field.width - 1)

/-- An index that is reached after one more. -/
def afterStep (field : FieldIndex m (position + 1) next indices)
    (one : m.StepsTo position (some index) type next) :
    FieldIndex m position type (index :: indices) :=
  { field with
    before := index :: field.before
    place := congrArg (List.cons index) field.place
    leads := .step one field.leads }

end FieldIndex

/-- Indices without top bits are followed. -/
theorem persists_addressSteps {indices : List ValueId} {target : Ty}
    (leads : lowering.subject.LeadsTo position (indices.map some) type target)
    (countable : type.isCountable = true)
    (positive : ∀ step : FieldIndex lowering.subject position type indices, step.isNegative = false)
    (id : ValueId) (sum : Int) : Persists (lowering.addressSteps id type sum indices) := by
  induction indices generalizing position type sum with
  | nil => exact .of_ok
  | cons index indices ih =>
    cases leads with
    | step one leads =>
      have first : Persists (lowering.addressStep id index type) := by
        cases one with
        | pointer | array =>
          exact .bind (.source lowering index) fun _ _ => .elementStep lowering _ _ _
        | @field _ _ width value inRange packed fields _ isLiteral named =>
          have unset : value.testBit (width - 1) = false := positive
            ⟨[], index, indices, packed, fields, width, value, inRange, rfl, .here _ _, isLiteral⟩
          rw [addressStep_of_literal isLiteral,
            fieldStep_eq inRange named (length_le_of_isCountable countable), unset,
            if_neg Bool.false_ne_true]
          exact .bind .of_layout fun _ _ => .of_ok
      refine .bind first fun step done => ?_
      obtain rfl := type_of_addressStep one countable done
      refine .bind (ih leads (isCountable_of_stepsTo one countable) ?_ _) fun _ _ => .of_ok
      exact fun later => positive (later.afterStep one)

/-- The code of an address computation around the field that one of its indices names. -/
theorem gep_eq {indices : List ValueId} {target : Ty}
    (found : lowering.subject.instruction? id = some held) (filled : held.operand 0 = some base)
    (slots : held.operands.tail = indices.map some)
    (leads : lowering.subject.LeadsTo 0 (indices.map some) (lowering.subject.typeOf base) target)
    (countable : (lowering.subject.typeOf base).isCountable = true)
    (step : FieldIndex lowering.subject 0 (lowering.subject.typeOf base) indices) :
    ∃ field, step.fields[step.value]? = some field ∧
      lowering.subject.LeadsTo (step.before.length + 1) (step.after.map some) field target ∧
      lowering.gep id = do
        let load ← lowering.loadInt base .rax false
        let (lines, sum) ← lowering.addressSteps id (lowering.subject.typeOf base) 0 step.before
        if step.isNegative then unsupported (.structIndex id)
        else
          let offset ← (fieldOffset step.packed step.fields step.value).mapError .layout
          let (others, total) ← lowering.addressSteps id field (signed64 (sum + signed64 offset))
            step.after
          return load ++ (lines ++ others) ++ addConstant total ++
            (← lowering.storeRegister .rax id) := by
  obtain ⟨before, index, after, packed, fields, width, value, inRange, rfl, behind, isLiteral⟩ :=
    step
  dsimp only
  rw [List.map_append, List.map_cons, Module.leadsTo_append_iff] at leads
  obtain ⟨middle, first, second⟩ := leads
  obtain rfl := first.unique behind
  rw [List.length_map, Nat.zero_add] at second
  cases second with
  | @step _ _ _ _ field _ one others =>
    have named := field_of_literal one isLiteral
    refine ⟨field, named, others, ?_⟩
    have few := length_le_of_isCountable (isCountable_of_leadsTo behind countable)
    rw [gep, operand_eq found filled, trailingValues_eq found slots]
    show lowering.loadInt base .rax false >>= _ = _
    apply bind_congr
    intro load
    rw [addressSteps_append behind countable, bind_assoc]
    apply bind_congr
    rintro ⟨lines, sum⟩
    dsimp only
    rw [addressSteps, addressStep_of_literal isLiteral, fieldStep_eq inRange named few]
    cases negative : value.testBit (width - 1) with
    | true =>
      rw [if_pos rfl]
      exact (if_pos negative).symm
    | false =>
      refine Eq.trans ?_ (if_neg (by simp [FieldIndex.isNegative, negative])).symm
      rw [if_neg Bool.false_ne_true]
      simp only [bind_assoc, pure_bind, List.nil_append]

/-- **Every accepted index into a struct has the code of the field that it names**, and the type of the
address is found behind this field; but there is no code if the top bit of the index is set. If it is
set in none of them, the code does not give up on an index into a struct. -/
theorem gep_fields (found : lowering.subject.instruction? id = some held)
    (kind : held.opcode = .gep) (filled : held.operand 0 = some base)
    (accepted : (RuleContext.of lowering.subject lowering.function).checkGep held = .ok ())
    (countable : (lowering.subject.typeOf base).isCountable = true) :
    ∃ target, lowering.subject.gepType id = .pointer target ∧
      (∀ step : FieldIndex lowering.subject 0 (lowering.subject.typeOf base)
          (lowering.trailingValues id),
        ∃ field, step.fields[step.value]? = some field ∧
          lowering.subject.LeadsTo (step.before.length + 1) (step.after.map some) field target ∧
          lowering.gep id = do
            let load ← lowering.loadInt base .rax false
            let (lines, sum) ← lowering.addressSteps id (lowering.subject.typeOf base) 0 step.before
            if step.isNegative then unsupported (.structIndex id)
            else
              let offset ← (fieldOffset step.packed step.fields step.value).mapError .layout
              let (others, total) ← lowering.addressSteps id field
                (signed64 (sum + signed64 offset)) step.after
              return load ++ (lines ++ others) ++ addConstant total ++
                (← lowering.storeRegister .rax id)) ∧
      (∀ step : FieldIndex lowering.subject 0 (lowering.subject.typeOf base)
          (lowering.trailingValues id),
        step.isNegative = true → ∀ lines, lowering.gep id ≠ .ok lines) ∧
      ((∀ step : FieldIndex lowering.subject 0 (lowering.subject.typeOf base)
          (lowering.trailingValues id), step.isNegative = false) → Persists (lowering.gep id)) := by
  obtain ⟨base', element, indices, target, filled', typed, slots, _, leads⟩ :=
    RuleContext.of_checkGep accepted kind
  obtain rfl := Option.some.inj (filled.symm.trans filled')
  rw [RuleContext.subject_of] at typed leads
  rw [← typed] at leads
  rw [trailingValues_eq found slots]
  have code := gep_eq found filled slots leads countable
  refine ⟨target, ?_, code, ?_, ?_⟩
  · rw [Module.gepType_eq found filled, slots]
    exact Module.addressType_of_leadsTo leads
  · intro step negative lines done
    obtain ⟨field, _, _, same⟩ := code step
    rw [same] at done
    obtain ⟨load, _, done⟩ := ok_of_bind done
    obtain ⟨first, _, done⟩ := ok_of_bind done
    dsimp only at done
    rw [if_pos negative] at done
    cases done
  · intro positive
    rw [gep, operand_eq found filled, trailingValues_eq found slots]
    refine .bind .of_ok fun _ known => ?_
    cases known
    refine .bind (.loadInt lowering _ _ _) fun _ _ => ?_
    refine .bind (persists_addressSteps leads countable positive id 0) fun _ _ => ?_
    exact .bind (.storeRegister lowering _ _) fun _ _ => .of_ok

end Lowering

namespace Module

open Asm Lowering

/-- What the code of the function with the grid is made from. -/
def gridLowering : Lowering where
  printer := Printer.of grid
  options := Options.default
  symbols := Symbols.empty
  function := ⟨0⟩
  frame := ⟨[(⟨1⟩, -8), (⟨2⟩, -10), (⟨6⟩, -24)], [], 24⟩
  plan := ⟨[⟨.integer, .general .rdi, none⟩, ⟨.integer, .general .rsi, none⟩], none, 0, 0⟩
  labels := [(⟨3⟩, ".L0")]

/-- The third index into the grid. -/
def gridField : FieldIndex grid 0 (grid.typeOf ⟨1⟩) [⟨2⟩, ⟨4⟩, ⟨5⟩, ⟨2⟩] where
  before := [⟨2⟩, ⟨4⟩]
  index := ⟨5⟩
  after := [⟨2⟩]
  packed := false
  fields := [.int 8, .array 4 (.int 32)]
  width := 8
  value := 1
  inRange := by decide
  place := rfl
  leads := walkType_eq_some_iff.mp (by decide +kernel)
  isLiteral := rfl

/-- It leads four bytes ahead. -/
theorem gep_fields_grid : gridLowering.gep ⟨6⟩ = do
    let load ← gridLowering.loadInt ⟨1⟩ .rax false
    let (lines, sum) ← gridLowering.addressSteps ⟨6⟩ (grid.typeOf ⟨1⟩) 0 [⟨2⟩, ⟨4⟩]
    let (others, total) ← gridLowering.addressSteps ⟨6⟩ (.array 4 (.int 32)) (signed64 (sum + 4))
      [⟨2⟩]
    return load ++ (lines ++ others) ++ addConstant total ++
      (← gridLowering.storeRegister .rax ⟨6⟩) := by
  have offset : (fieldOffset gridField.packed gridField.fields gridField.value).mapError
      Failure.layout = .ok 4 := by
    decide +kernel
  obtain ⟨_, _, code, _⟩ := @gep_fields gridLowering ⟨6⟩ ⟨1⟩ gridGep instruction?_grid rfl rfl rfl
    (by decide +kernel)
  obtain ⟨field, named, _, same⟩ := code gridField
  obtain rfl := Option.some.inj named
  rw [same, offset]
  rfl

/-- The address of the second of two fields, which a literal of one bit names. -/
def narrowSteps : List Operation :=
  [.addFunction ⟨[.pointer (.struct false [.int 8, .int 32])], .void, false⟩ "f",
    .addBlock ⟨0⟩ .finish "entry", .addLiteral (.ofNat 8 0), .addLiteral (.ofNat 1 1),
    .insert ⟨some (.finish ⟨2⟩)⟩ (.gep ⟨1⟩ [⟨3⟩, ⟨4⟩]) "field",
    .insert ⟨some (.finish ⟨2⟩)⟩ (.ret none) ""]

def narrow : Module := builtBy "narrow" narrowSteps

theorem validate_narrow : narrow.validate = .ok () := by
  have functions : narrow.functions = [⟨0⟩] := by decide +kernel
  have flow : (Cfg.of narrow ⟨0⟩).nodes = [(⟨2⟩, [])] := by decide +kernel
  have dominators : DominatorTree.of (Cfg.mk ⟨0⟩ [(⟨2⟩, [])]).graph = ⟨[⟨2⟩], [none]⟩ :=
    DominatorTree.of_eq (by decide +kernel) (by decide +kernel) (by decide +kernel)
  exact validate_of_checks functions (by decide +kernel) (context_eq flow dominators)
    (by decide +kernel) (by decide +kernel)

/-- **An accepted index that names a field, for which there is no code.** -/
theorem field_rejected : Built narrow ∧
    (RuleContext.of narrow ⟨0⟩).checkGep ⟨some ⟨2⟩, .gep, [some ⟨1⟩, some ⟨3⟩, some ⟨4⟩]⟩ = .ok () ∧
    narrow.instruction? ⟨5⟩ = some ⟨some ⟨2⟩, .gep, [some ⟨1⟩, some ⟨3⟩, some ⟨4⟩]⟩ ∧
    narrow.literal? ⟨4⟩ = some (.int 1 1 (by decide)) ∧
    narrow.gepType ⟨5⟩ = .pointer (.int 32) ∧
    narrow.compile Options.default = .error (.unsupported (.structIndex ⟨5⟩)) := by
  have assembled : narrow.assemble Options.default = .error (.unsupported (.structIndex ⟨5⟩)) := by
    decide +kernel
  refine ⟨built_builtBy "narrow" narrowSteps, rfl, rfl, rfl, by decide +kernel, ?_⟩
  rw [compile, validate_narrow, ← assembled]
  rfl

end Module

end SsaAmd64
