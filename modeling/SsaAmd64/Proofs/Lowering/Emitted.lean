/-
**What lines hold.**

Every line that is made for a function has one of few forms: it works on registers, and its
constants have been tested; or it has one memory operand, which points where memory operands do; or
it moves the stack pointer.

* `Lowering.Emitted`: the forms of lines;
* `Lowering.Grounded.emits_instruction`: the code of an instruction has lines of these forms;
* `Lowering.Grounded.emits_lines`: so has the code of a function;
* `Module.emitted_of_assemble`: so has the code of a module.
-/

import SsaAmd64.Proofs.Lowering.Addresses

namespace SsaAmd64

namespace Lowering

open Asm

/-- **The forms of the lines** that are made for a function. -/
inductive Emitted (lowering : Lowering) : Line → Prop
  | direct {line : Line} : line.isDirect = true → Emitted lowering line
  | load {width : Width} {base target : Register} {displacement : Int} :
    lowering.Address base displacement →
    Emitted lowering (.mov width (.memory base displacement) (.register target width))
  | store {width : Width} {source base : Register} {displacement : Int} :
    lowering.Address base displacement →
    Emitted lowering (.mov width (.register source width) (.memory base displacement))
  | fill {width : Width} {value : Int} {base : Register} {displacement : Int} :
    fits32 value = true → lowering.Address base displacement →
    Emitted lowering (.mov width (.immediate value) (.memory base displacement))
  | extend {signed : Bool} {width : Width} {base target : Register} {displacement : Int} :
    lowering.Address base displacement →
    Emitted lowering (.extend signed width (.memory base displacement) target)
  | address {base target : Register} {displacement : Int} : lowering.Address base displacement →
    Emitted lowering (.lea (.memory base displacement) target)
  /-- The stack pointer moves by the size of the frame or of an area. -/
  | stack {operation : Arithmetic} {size : Nat} : size ∈ lowering.untested →
    Emitted lowering (moveStack operation size)

/-- **Lines of these forms.** -/
abbrev Emits (lowering : Lowering) : List Line → Prop :=
  Throughout lowering.Emitted

variable {lowering : Lowering} {id value block source target : ValueId} {register base : Register}
variable {start : Int} {size next after last : Nat} {first second lines : List Line}

/-! ### Pieces of code -/

theorem emits_of_direct (lines : List Line) (direct : lines.all Line.isDirect = true) :
    lowering.Emits lines :=
  fun line member => .direct (List.all_eq_true.mp direct line member)

/-- The lines that most code is made of have these forms. -/
theorem admits_emitted (lowering : Lowering) : lowering.Admits lowering.Emitted where
  quiet quiet := .direct (Bool.and_eq_true_iff.mp quiet).2
  symbol _ _ := .direct rfl
  read home _ _ _ := .extend (.slot home)
  write home _ _ := .store (.slot home)
  slot home _ := .address (.slot home)
  storage found := .address (.storage found)

theorem emits_comment (comments : Bool) (text : String) :
    lowering.Emits (comment comments text) := by
  cases comments <;> exact emits_of_direct _ rfl

theorem emits_header (lowering : Lowering) : lowering.Emits lowering.header := by
  have kind : lowering.Emits (if lowering.options.platform.isElf then
      [.functionType (lowering.symbols.symbol lowering.function)] else []) := by
    split <;> exact emits_of_direct _ rfl
  exact throughout_append.mpr ⟨throughout_append.mpr ⟨throughout_append.mpr ⟨emits_comment _ _,
    emits_of_direct [_, _] rfl⟩, kind⟩, emits_of_direct [_] rfl⟩

/-! ### Pieces of memory -/

theorem emits_copyMemory {sourceBase : Register} {sourceStart : Int}
    (reads : lowering.Spans sourceBase sourceStart size) (writes : lowering.Spans base start size) :
    lowering.Emits (copyMemory sourceBase sourceStart base start size) := by
  intro line member
  obtain ⟨piece, listed, inside⟩ := List.mem_flatMap.mp member
  simp only [List.mem_cons, List.not_mem_nil, or_false] at inside
  rcases inside with rfl | rfl
  · exact .load (reads piece listed)
  · exact .store (writes piece listed)

/-- Only the pieces of eight bytes may hold constants that do not fit. -/
theorem eq_quad_of_wide {width : Width} {bytes : List UInt8}
    (wide : fits32 (pieceValue width bytes) = false) : width = .quad := by
  have range : width ≠ .quad → patternCount (8 * width.bytes) ≤ 0x100000000 := by
    cases width <;> decide
  have positive := patternCount_pos (8 * width.bytes)
  by_contra narrow
  have bound := range narrow
  have above := Int.bmod_lt (x := (Bytes.toNat bytes : Int)) positive
  have below := Int.le_bmod (x := (Bytes.toNat bytes : Int)) positive
  rw [pieceValue, Bool.eq_false_iff, Ne, fits32_iff] at wide
  omega

theorem emits_storeBytes {bytes : List UInt8} (writes : lowering.Spans base start bytes.length) :
    lowering.Emits (storeBytes bytes base start) := by
  intro line member
  obtain ⟨piece, listed, inside⟩ := List.mem_flatMap.mp member
  have target := writes piece listed
  dsimp only [storePiece] at inside
  split at inside
  case isTrue fits =>
    obtain rfl := List.mem_singleton.mp inside
    exact .fill fits target
  case isFalse wide =>
    have full := eq_quad_of_wide (Bool.eq_false_iff.mpr wide)
    simp only [List.mem_cons, List.not_mem_nil, or_false] at inside
    rcases inside with rfl | rfl
    · exact .direct rfl
    · rw [full]
      exact .store target

/-! ### Moving values -/

theorem emits_copyTo (target : lowering.Address base start)
    (slots : ∀ origin, lowering.slot value = .ok origin →
      size ≤ lowering.frame.size ∧ lowering.Spans base start size)
    (literals : ∀ literal, lowering.subject.literal? value = some literal →
      lowering.Spans base start size) :
    Ensures lowering.Emits (lowering.copyTo value base start size) := by
  refine (Ensures.trivial _).bind fun source found _ => ?_
  cases source with
  | slot origin =>
    have home := slot_of_source found
    obtain ⟨fits, writes⟩ := slots origin home
    exact .of_ok (emits_copyMemory (spans_home home fits) writes)
  | literal literal =>
    refine .of_ok (emits_storeBytes ?_)
    rw [Literal.length_image]
    exact literals literal (literal?_of_source found)
  | symbol symbol =>
    exact .of_ok (throughout_cons.mpr
      ⟨.direct rfl, throughout_singleton.mpr (.store target)⟩)

namespace Grounded

variable (grounded : lowering.Grounded)

include grounded

/-- A value that is copied to where a pointer points. -/
theorem copyToPointer (pointer : base = .r11 ∨ base = resultPointer)
    (sized : lowering.sizeOf value = .ok size)
    (reserved : ∀ literal, lowering.subject.literal? value = some literal →
      lastPiece size ∈ lowering.untested) :
    Ensures lowering.Emits (lowering.copyTo value base 0 size) := by
  have whole : lastPiece size ≤ size := Nat.sub_le _ _
  have target : lowering.Address base ((0 : Nat) : Int) :=
    .pointed pointer grounded.frame_mem (Nat.zero_le _)
  refine emits_copyTo target (fun origin home => ?_) fun literal known => ?_
  · have fits := grounded.le_of_slot home sized
    exact ⟨fits, spans_pointed pointer grounded.frame_mem (by omega)⟩
  · exact spans_pointed pointer (reserved literal known) (Nat.le_refl _)

/-- A value that is copied into an area. -/
theorem copyToArea {area offset : Nat} (reserved : area ∈ lowering.untested)
    (sized : lowering.sizeOf value = .ok size) (room : offset + size ≤ area) :
    Ensures lowering.Emits (lowering.copyTo value .rsp (signed64 offset) size) :=
  emits_copyTo (.foot reserved (by omega))
    (fun _ home => ⟨grounded.le_of_slot home sized, spans_area reserved room⟩)
    fun _ _ => spans_area reserved room

end Grounded

/-! ### Calls -/

theorem emits_adjustStack (operation : Arithmetic) (reserved : size ∈ lowering.untested) :
    lowering.Emits (adjustStack operation size) := by
  rw [adjustStack]
  split
  · exact throughout_nil
  · exact throughout_singleton.mpr (.stack reserved)

namespace Grounded

variable (grounded : lowering.Grounded)

include grounded

theorem load : Ensures lowering.Emits (lowering.load id) := by
  refine (Ensures.trivial _).bind fun pointer _ _ => ?_
  refine (Ensures.trivial _).bind fun size sized _ => ?_
  refine (Ensures.trivial _).bind fun start home _ => ?_
  refine (lowering.admits_emitted.loadInt rfl pointer false).bind fun lines _ loaded => .of_ok ?_
  have fits := grounded.le_of_slot home sized
  have whole : lastPiece size ≤ size := Nat.sub_le _ _
  have reads : lowering.Spans .r11 0 size :=
    spans_pointed (.inl rfl) grounded.frame_mem (by omega)
  exact throughout_append.mpr ⟨loaded, emits_copyMemory reads (spans_home home fits)⟩

theorem store (inside : block ∈ lowering.subject.blocksOf lowering.function)
    (listed : id ∈ lowering.subject.instructionsOf block)
    (kind : lowering.subject.opcode? id = some .store) :
    Ensures lowering.Emits (lowering.store id) := by
  refine (Ensures.trivial _).bind fun pointer _ _ => ?_
  refine (Ensures.trivial _).bind fun value filled _ => ?_
  refine (Ensures.trivial _).bind fun size sized _ => ?_
  refine (lowering.admits_emitted.loadInt rfl pointer false).bind fun load _ loaded => ?_
  refine (grounded.copyToPointer (.inl rfl) sized fun literal known => ?_).bind
    fun copy _ copied => .of_ok (throughout_append.mpr ⟨loaded, copied⟩)
  refine grounded.instruction_mem inside listed ?_
  rw [Module.untestedIn, kind, operand?_of_operand filled]
  simpa using mem_literalPiece sized known

/-! ### Arguments -/

theorem placeInMemory {area : Nat} {plan : ArgumentPlan} (reserved : area ∈ lowering.untested)
    (inside : ∀ range ∈ plan.ranges (lowering.subject.typeOf value).bytes,
      range.1 + range.2 ≤ area) :
    Ensures lowering.Emits (lowering.placeInMemory value plan) := by
  refine (Ensures.trivial _).bind fun size sized _ => ?_
  rw [Ty.bytes_eq (ok_of_mapError sized), ArgumentPlan.ranges] at inside
  split
  case h_1 copied offset copy place =>
    simp only [copy, place, List.forall_mem_cons] at inside
    obtain ⟨copyInside, placeInside, _⟩ := inside
    refine (grounded.copyToArea reserved sized copyInside).bind fun lines _ written => .of_ok ?_
    exact throughout_append.mpr ⟨written, throughout_cons.mpr
      ⟨.address (.foot reserved (by omega)),
        throughout_singleton.mpr (.store (.foot reserved (by omega)))⟩⟩
  case h_2 copied copy other =>
    rw [copy] at inside
    refine grounded.copyToArea reserved sized (inside (copied, size) ?_)
    cases plan.place <;> exact List.mem_cons_self
  case h_3 offset copy place =>
    simp only [copy, place, List.forall_mem_cons] at inside
    exact grounded.copyToArea reserved sized inside.1
  case h_4 => exact .of_ok throughout_nil

theorem call (inside : block ∈ lowering.subject.blocksOf lowering.function)
    (listed : id ∈ lowering.subject.instructionsOf block)
    (kind : lowering.subject.opcode? id = some .call) :
    Ensures lowering.Emits (lowering.call id) := by
  refine (Ensures.trivial _).bind fun called known _ => ?_
  obtain ⟨callee, held⟩ := called
  refine (Ensures.trivial _).bind fun plan planned _ => ?_
  have planned := ok_of_mapError planned
  have reserved : plan.stackSize ∈ lowering.untested := by
    refine grounded.instruction_mem inside listed ?_
    rw [Module.untestedIn, kind, callPlan?_of_callee known planned]
    exact List.mem_singleton.mpr rfl
  have copies : ∀ entry ∈ (lowering.trailingValues id).zip plan.arguments,
      ∀ copy, entry.2.copy = some copy → copy ≤ plan.stackSize := by
    intro entry member copy copied
    have whole := inside_of_plan planned entry member
      (copy, (lowering.subject.typeOf entry.1).bytes) (by
        rw [ArgumentPlan.ranges, copied]
        cases entry.2.place <;> exact List.mem_cons_self)
    exact Nat.le_trans (Nat.le_add_right _ _) whole
  have admits := lowering.admits_emitted
  have free := free_of_plan planned (lowering.trailingValues id)
  refine (Ensures.mapM fun entry member =>
    grounded.placeInMemory reserved (inside_of_plan planned entry member)).bind
    fun toMemory _ memory => ?_
  refine (Ensures.mapM fun entry member => admits.placeInRegister (free entry member)
    fun copy _ copied _ => .address (.foot reserved (copies entry member copy copied))).bind
    fun toRegisters _ registers => ?_
  refine admits.passResultAddress.bind fun address _ passed => ?_
  refine admits.storeResult.bind fun result _ stored => .of_ok ?_
  simp only [throughout_append]
  exact ⟨⟨⟨⟨⟨⟨⟨emits_adjustStack .sub reserved, throughout_flatten memory⟩,
    throughout_flatten registers⟩, passed⟩, admits.passVectorCount _ planned⟩,
    emits_of_direct [_] rfl⟩, emits_adjustStack .add reserved⟩, stored⟩

/-! ### Edges -/

section Edges

variable {sized : List ((ValueId × ValueId) × Nat)}

theorem copyDirectly (sizes : ∀ copy ∈ sized, lowering.sizeOf copy.1.1 = .ok copy.2) :
    Ensures lowering.Emits (lowering.copyDirectly sized) := by
  have each : ∀ copy ∈ sized, Ensures lowering.Emits (do
      lowering.copyTo copy.1.2 .rbp (← lowering.slot copy.1.1) copy.2) := by
    intro copy member
    refine (Ensures.trivial _).bind fun start home _ => ?_
    have fits := grounded.le_of_slot home (sizes copy member)
    have writes := spans_home home fits
    exact emits_copyTo (.slot home) (fun _ _ => ⟨fits, writes⟩) fun _ _ => writes
  exact (Ensures.mapM each).bind fun parts _ copied => .of_ok (throughout_flatten copied)

theorem copyStaged (sizes : ∀ copy ∈ sized, lowering.sizeOf copy.1.1 = .ok copy.2)
    (reserved : roundUp (stage 0 sized).2 16 ∈ lowering.untested) :
    Ensures lowering.Emits (lowering.copyStaged sized) := by
  intro lines code
  rw [Lowering.copyStaged] at code
  dsimp only at code
  obtain ⟨reads, loads, code⟩ := ok_of_bind code
  obtain ⟨writes, stores, code⟩ := ok_of_bind code
  cases code
  -- every phi has a slot, or there would be no code that writes it
  have fits : ∀ copy ∈ (stage 0 sized).1, copy.size ≤ lowering.frame.size := by
    intro copy member
    obtain ⟨part, _, stored⟩ := ok_of_mem_mapM stores copy (List.mem_reverse.mpr member)
    obtain ⟨start, home, _⟩ := ok_of_bind stored
    exact grounded.le_of_slot home (sizes copy.copied (staged_of_mem member).1)
  have read : lowering.Emits reads.flatten := by
    refine throughout_flatten (Ensures.mapM (fun copy member => ?_) reads loads)
    have room := (staged_of_mem member).2
    have writes := spans_area reserved room
    exact emits_copyTo (.foot reserved (by omega)) (fun _ _ => ⟨fits copy member, writes⟩)
      fun _ _ => writes
  have written : lowering.Emits writes.flatten := by
    refine throughout_flatten (Ensures.mapM (fun copy member => ?_) writes stores)
    have member := List.mem_reverse.mp member
    have reads := spans_area reserved (staged_of_mem member).2
    exact (Ensures.trivial _).bind fun start home _ =>
      .of_ok (emits_copyMemory reads (spans_home home (fits copy member)))
  exact throughout_cons.mpr ⟨.stack reserved, throughout_append.mpr
    ⟨throughout_append.mpr ⟨read, written⟩, throughout_singleton.mpr (.stack reserved)⟩⟩

theorem edge (reserved : stagingArea lowering.subject source target ∈ lowering.untested) :
    Ensures lowering.Emits (lowering.edge source target) := by
  have assigned : Ensures lowering.Emits (lowering.assignPhis source target) := by
    refine (Ensures.trivial _).bind fun sized sizes _ => ?_
    split
    case isTrue hazardous =>
      rw [stagingArea_of_sizes sizes hazardous] at reserved
      exact grounded.copyStaged (sizeOf_of_sizes sizes) reserved
    case isFalse => exact grounded.copyDirectly (sizeOf_of_sizes sizes)
  exact assigned.bind fun lines _ assigned =>
    .of_ok (throughout_append.mpr ⟨assigned, emits_of_direct [_] rfl⟩)

theorem branch (inside : block ∈ lowering.subject.blocksOf lowering.function)
    (listed : id ∈ lowering.subject.instructionsOf block)
    (kind : lowering.subject.opcode? id = some .br) :
    Ensures lowering.Emits (lowering.branch block id) := by
  refine (Ensures.trivial _).bind fun target leads _ => grounded.edge ?_
  refine grounded.instruction_mem inside listed ?_
  rw [Module.untestedIn, kind, operand?_of_target leads]
  exact List.mem_singleton.mpr rfl

theorem branchIf {next : Nat} (inside : block ∈ lowering.subject.blocksOf lowering.function)
    (listed : id ∈ lowering.subject.instructionsOf block)
    (kind : lowering.subject.opcode? id = some .condbr) :
    Ensures (fun code => lowering.Emits code.1) (lowering.branchIf next block id) := by
  have reserved : ∀ slot, slot = 1 ∨ slot = 2 → ∀ target, lowering.target id slot = .ok target →
      stagingArea lowering.subject block target ∈ lowering.untested := by
    intro slot either target leads
    refine grounded.instruction_mem inside listed ?_
    rw [Module.untestedIn, kind]
    refine List.mem_map_of_mem (List.mem_append.mpr ?_)
    rcases either with rfl | rfl
    · exact .inl (Option.mem_toList.mpr (operand?_of_target leads))
    · exact .inr (Option.mem_toList.mpr (operand?_of_target leads))
  rw [Lowering.branchIf]
  split
  · exact .of_error
  · rename_i condition _
    refine (Ensures.trivial _).bind fun ifTrue leads _ => ?_
    refine (Ensures.trivial _).bind fun ifFalse leads' _ => ?_
    refine (lowering.admits_emitted.loadInt rfl condition false).bind fun load _ loaded => ?_
    have test := throughout_append.mpr ⟨loaded, emits_of_direct
      [.arithmetic .test .quad (.full .rax) (.full .rax)] rfl⟩
    refine (grounded.edge (reserved 2 (.inr rfl) ifFalse leads')).bind fun falseEdge _ edge => ?_
    split
    · exact .of_ok (throughout_append.mpr ⟨test, throughout_cons.mpr ⟨.direct rfl, edge⟩⟩)
    · refine (grounded.edge (reserved 1 (.inl rfl) ifTrue leads)).bind fun trueEdge _ edge' =>
        .of_ok ?_
      exact throughout_append.mpr ⟨throughout_append.mpr
        ⟨test, throughout_cons.mpr ⟨.direct rfl, edge⟩⟩, throughout_cons.mpr ⟨.direct rfl, edge'⟩⟩

end Edges

/-! ### All instructions -/

theorem ret (inside : block ∈ lowering.subject.blocksOf lowering.function)
    (listed : id ∈ lowering.subject.instructionsOf block)
    (kind : lowering.subject.opcode? id = some .ret) :
    Ensures lowering.Emits (lowering.ret id) := by
  rw [Lowering.ret]
  split
  case h_2 => exact .of_ok (emits_of_direct epilogue rfl)
  case h_1 value filled =>
    have returned : Ensures lowering.Emits (lowering.returnValue value) := by
      rw [returnValue]
      split
      case h_1 => exact lowering.admits_emitted.loadInt rfl value false
      case h_2 =>
        refine (lowering.admits_emitted.loadInt rfl value false).bind
          fun lines _ loaded => .of_ok ?_
        exact throughout_append.mpr ⟨loaded, emits_of_direct [_] rfl⟩
      case h_3 result =>
        refine (Ensures.trivial _).bind fun size sized _ => ?_
        refine (grounded.copyToPointer (.inr rfl) sized fun literal known => ?_).bind
          fun copy _ copied => .of_ok (throughout_append.mpr ⟨copied, emits_of_direct [_] rfl⟩)
        refine grounded.instruction_mem inside listed ?_
        rw [Module.untestedIn, kind]
        dsimp only
        rw [if_pos result, filled]
        simpa using mem_literalPiece sized known
      case h_4 => exact .of_ok throughout_nil
    exact returned.bind fun lines _ returned =>
      .of_ok (throughout_append.mpr ⟨returned, emits_of_direct epilogue rfl⟩)

/-- **The code of every instruction has lines of these forms.** -/
theorem emits_instruction {next : Nat}
    (inside : block ∈ lowering.subject.blocksOf lowering.function)
    (listed : id ∈ lowering.subject.instructionsOf block) :
    Ensures (fun code => lowering.Emits code.1) (lowering.instruction next block id) := by
  have plain : ∀ {code : Except Failure (List Line)}, Ensures lowering.Emits code →
      Ensures (fun result => lowering.Emits result.1) (do return (← code, next)) := fun plain =>
    plain.bind fun lines _ plain => .of_ok plain
  have admits := lowering.admits_emitted
  rw [Lowering.instruction]
  cases kind : lowering.subject.opcode? id with
  | none => exact .of_ok throughout_nil
  | some opcode =>
    cases opcode with
    | alloc type => exact plain admits.alloc
    | load => exact plain grounded.load
    | store => exact plain (grounded.store inside listed kind)
    | binary operation => exact plain (admits.binary operation)
    | compare predicate => exact plain (admits.compare predicate)
    | convert conversion target => exact plain (admits.convert conversion target)
    | gep => exact plain admits.gep
    | call => exact plain (grounded.call inside listed kind)
    | br => exact plain (grounded.branch inside listed kind)
    | condbr => exact grounded.branchIf inside listed kind
    | ret => exact plain (grounded.ret inside listed kind)
    | unreachable => exact .of_ok (emits_of_direct [_] rfl)
    | phi type => exact .of_ok throughout_nil

theorem emits_instructions {ids : List ValueId}
    (inside : block ∈ lowering.subject.blocksOf lowering.function)
    (listed : ∀ id ∈ ids, id ∈ lowering.subject.instructionsOf block)
    (code : lowering.instructions next block ids = .ok (lines, after)) : lowering.Emits lines := by
  induction ids generalizing next lines with
  | nil =>
    cases code
    exact throughout_nil
  | cons id ids ih =>
    obtain ⟨⟨first, middle⟩, here, code⟩ := ok_of_bind code
    obtain ⟨⟨others, _⟩, later, code⟩ := ok_of_bind code
    cases code
    obtain ⟨first', others'⟩ := List.forall_mem_cons.mp listed
    exact throughout_append.mpr ⟨throughout_append.mpr ⟨emits_comment _ _,
      grounded.emits_instruction inside first' _ here⟩, ih others' later⟩

theorem emits_blocks {blocks : List ValueId}
    (inside : ∀ block ∈ blocks, block ∈ lowering.subject.blocksOf lowering.function)
    (code : lowering.blocks next blocks = .ok (lines, after)) : lowering.Emits lines := by
  induction blocks generalizing next lines with
  | nil =>
    cases code
    exact throughout_nil
  | cons block blocks ih =>
    obtain ⟨⟨first, middle⟩, here, code⟩ := ok_of_bind code
    obtain ⟨⟨others, _⟩, later, code⟩ := ok_of_bind code
    cases code
    obtain ⟨first', others'⟩ := List.forall_mem_cons.mp inside
    exact throughout_cons.mpr ⟨.direct rfl, throughout_append.mpr
      ⟨grounded.emits_instructions first' (fun _ member => member) here, ih others' later⟩⟩

/-! ### Functions -/

theorem saveParameter {plan : ArgumentPlan}
    (reserved : ∀ number ∈ lowering.subject.untestedFor value plan, number ∈ lowering.untested) :
    Ensures lowering.Emits (lowering.saveParameter value plan) := by
  refine (Ensures.trivial _).bind fun start home _ => ?_
  refine (Ensures.trivial _).bind fun size sized _ => ?_
  have fits := grounded.le_of_slot home sized
  have writes := spans_home home fits
  rw [Module.untestedFor, Ty.bytes_eq (ok_of_mapError sized)] at reserved
  split
  case h_1 place copy =>
    have whole : lastPiece size ≤ size := Nat.sub_le _ _
    have reads : lowering.Spans .r11 0 size :=
      spans_pointed (.inl rfl) grounded.frame_mem (by omega)
    refine .of_ok (throughout_cons.mpr ⟨?_, emits_copyMemory reads writes⟩)
    cases place : plan.place with
    | general register => exact .direct rfl
    | vector register companion => exact .direct rfl
    | stack offset =>
      have bound : 32 + offset ∈ lowering.untested := reserved _ (by
        rw [copy, place]
        exact List.mem_singleton.mpr rfl)
      have here : lowering.Address .rbp (incomingDisplacement offset + ((0 : Nat) : Int)) :=
        .incoming bound (Nat.le_refl _)
      rw [Int.natCast_zero, Int.add_zero] at here
      exact .load here
  case h_2 register copy place => exact lowering.admits_emitted.storeRegister register value
  case h_3 register _ copy place =>
    refine (lowering.admits_emitted.storeRegister .rax value).bind fun lines _ stored => .of_ok ?_
    exact throughout_append.mpr ⟨emits_of_direct [_] rfl, stored⟩
  case h_4 offset copy place =>
    refine .of_ok (emits_copyMemory (fun piece member => ?_) writes)
    have some' : size ≠ 0 := by
      rintro rfl
      rw [pieces, if_pos rfl] at member
      cases member
    have bound : 32 + offset + lastPiece size ∈ lowering.untested := reserved _ (by
      rw [copy, place]
      dsimp only
      rw [if_neg some']
      exact List.mem_singleton.mpr rfl)
    have last := le_lastPiece piece member
    exact .incoming bound (by omega)

theorem saveParameters : Ensures lowering.Emits lowering.saveParameters := by
  refine Ensures.bind (Ensures.mapM fun entry listed => ?_)
    fun parts _ saved => .of_ok (throughout_flatten saved)
  exact grounded.saveParameter fun number member => grounded.parameter_mem listed member

theorem emits_prologue : lowering.Emits lowering.prologue := by
  have result : lowering.Emits (if lowering.plan.result = some .memory then
      [.mov .quad (.full lowering.convention.hiddenRegister) (.full resultPointer)] else []) := by
    split <;> exact emits_of_direct _ rfl
  have saved : lowering.Emits
      (savedRegisters.map .push ++ [.mov .quad (.full .rsp) (.full .rbp)]) :=
    emits_of_direct _ rfl
  exact throughout_append.mpr ⟨throughout_append.mpr
    ⟨saved, emits_adjustStack .sub grounded.frame_mem⟩, result⟩

/-- **The code of a function has lines of these forms.** -/
theorem emits_lines (code : lowering.lines next = .ok (lines, after)) : lowering.Emits lines := by
  obtain ⟨parameters, saved, code⟩ := ok_of_bind code
  obtain ⟨⟨body, _⟩, blocks, code⟩ := ok_of_bind code
  cases code
  exact throughout_append.mpr ⟨throughout_append.mpr ⟨throughout_append.mpr ⟨emits_header lowering,
    grounded.emits_prologue⟩, grounded.saveParameters _ saved⟩,
    grounded.emits_blocks (fun _ member => member) blocks⟩

end Grounded

/-! ### Modules -/

theorem isDirect_of_isData {line : Line} (data : line.isData = true) : line.isDirect = true := by
  cases line <;> first | rfl | cases data

/-- The data section has no instructions. -/
theorem direct_dataSection {printer : Printer} {symbols : Symbols} {comments : Bool} :
    Ensures (fun lines => lines.all Line.isDirect = true)
      (dataSection printer symbols comments) := by
  have each : ∀ id ∈ printer.subject.globals, Ensures (fun part => part.all Line.isDirect = true)
      (globalData printer symbols comments id) := by
    intro id _
    rw [globalData]
    split
    case h_1 => exact .of_ok rfl
    case h_2 held _ =>
      refine (Ensures.trivial _).bind fun extent _ _ => ?_
      refine (data_initialData symbols held.initialiser).bind fun content _ data => .of_ok ?_
      have direct : content.all Line.isDirect = true :=
        List.all_eq_true.mpr fun line member => isDirect_of_isData (data line member).1
      rw [List.all_append, List.all_append, List.all_append, direct]
      cases comments <;> split <;> rfl
  rw [dataSection]
  split
  case h_1 => exact .of_ok rfl
  case h_2 =>
    refine (Ensures.mapM each).bind fun parts _ direct => .of_ok ?_
    rw [List.all_cons, List.all_flatten]
    exact List.all_eq_true.mpr direct

/-- **Every line of the code of functions has one of the forms**, for the function it belongs to. -/
theorem emitted_of_functions {printer : Printer} {options : Options} {symbols : Symbols}
    {listed : List ValueId}
    (code : functions printer options symbols next listed = .ok lines) :
    ∀ line ∈ lines, ∃ lowering : Lowering, lowering.Emitted line ∧ lowering.Grounded ∧
      lowering.subject = printer.subject ∧ lowering.options = options ∧
      lowering.function ∈ listed ∧
      (lowering.subject.blocksOf lowering.function).isEmpty = false := by
  induction listed generalizing next lines with
  | nil =>
    cases code
    exact List.forall_mem_nil _
  | cons function others ih =>
    rw [functions] at code
    split at code
    case isTrue =>
      intro line member
      obtain ⟨lowering, emitted, grounded, subject, same, inside, defined⟩ := ih code line member
      exact ⟨lowering, emitted, grounded, subject, same, List.mem_cons_of_mem _ inside, defined⟩
    case isFalse defined =>
      obtain ⟨⟨lowering, after⟩, made, code⟩ := ok_of_bind code
      obtain ⟨⟨first, _⟩, here, code⟩ := ok_of_bind code
      obtain ⟨rest, later, code⟩ := ok_of_bind code
      cases code
      intro line member
      rcases List.mem_append.mp member with own | other
      · have grounded := grounded_of_made made
        have emitted := grounded.emits_lines here line own
        obtain ⟨rfl, same, _, rfl, _⟩ := eq_of_made made
        exact ⟨lowering, emitted, grounded, rfl, same, List.mem_cons_self,
          Bool.eq_false_iff.mpr defined⟩
      · obtain ⟨lowering, emitted, grounded, subject, same, inside, defined⟩ :=
          ih later line other
        exact ⟨lowering, emitted, grounded, subject, same, List.mem_cons_of_mem _ inside, defined⟩

end Lowering

/-- **Every line of the code of a module is direct, or has one of the forms** for a function of the
module. -/
theorem Module.emitted_of_assemble {m : Module} {options : Options} {program : List Asm.Line}
    (assembled : m.assemble options = .ok program) :
    ∀ line ∈ program, line.isDirect = true ∨ ∃ lowering : Lowering, lowering.Emitted line ∧
      lowering.Grounded ∧ lowering.subject = m ∧ lowering.options = options ∧
      lowering.function ∈ m.functions ∧ (m.blocksOf lowering.function).isEmpty = false := by
  obtain ⟨symbols, _, assembled⟩ := ok_of_bind assembled
  obtain ⟨data, section', assembled⟩ := ok_of_bind assembled
  obtain ⟨code, functions, assembled⟩ := ok_of_bind assembled
  cases assembled
  have direct := Lowering.direct_dataSection data section'
  intro line member
  simp only [List.mem_append, List.mem_singleton] at member
  rcases member with ((inside | rfl) | inside) | inside
  · exact .inl (List.all_eq_true.mp direct line inside)
  · exact .inl rfl
  · obtain ⟨lowering, emitted, grounded, subject, same, listed, defined⟩ :=
      Lowering.emitted_of_functions functions line inside
    have subject : lowering.subject = m := subject
    rw [subject] at defined
    exact .inr ⟨lowering, emitted, grounded, subject, same, listed, defined⟩
  · rw [Lowering.footer] at inside
    split at inside
    · obtain rfl := List.mem_singleton.mp inside
      exact .inl rfl
    · cases inside

end SsaAmd64
