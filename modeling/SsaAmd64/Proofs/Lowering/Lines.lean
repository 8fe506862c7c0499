/-
**What code is made of.**

Most of the code of an instruction is plain: lines that are followed by the next line, that leave
alone the registers which hold the frame together, and that carry no names but symbols. What is not
plain stands at fixed places: changes of the stack pointer around a call or a staged assignment, the
call itself, and the jumps, labels and epilogues at the end of a block.

Plain lines store through few registers: through `%rbp` into home slots, through `%rsp` into the
area that has been reserved last, and through the registers that hold a pointer of the program or of
the caller. What else is asked of stores is a parameter.

* `Lowering.Plain`: plain lines whose stores follow a rule;
* `Lowering.Fair`: a rule that allows the stores code makes;
* `Lowering.Shape`: the code of an instruction, plain pieces and what stands between them;
* `Lowering.Fair.shape_instruction`: the code of every instruction has such a shape.
-/

import SsaAmd64.Proofs.Lowering.Traversal

namespace SsaAmd64

namespace Lowering

open Asm

/-! ### Plain lines -/

/-- A rule for stores: base register, displacement and number of bytes. -/
abbrev StoreRule := Register → Int → Nat → Prop

/-- **Everything within some bytes from a displacement on may be stored to.** -/
def StoreRule.Covers (rule : StoreRule) (base : Register) (start : Int) (size : Nat) : Prop :=
  ∀ place count : Nat, place + count ≤ size → rule base (start + place) count

/-- A plain line whose names are symbols and whose stores follow a rule. -/
structure IsPlain (lowering : Lowering) (rule : StoreRule) (line : Line) : Prop where
  plain : line.isPlain = true
  symbol : ∀ name ∈ line.names, ∃ id, lowering.symbols.symbol id = name
  stores : ∀ store ∈ line.stores, rule store.1 store.2.1 store.2.2

/-- **Plain lines whose names are symbols and whose stores follow a rule.** -/
def Plain (lowering : Lowering) (rule : StoreRule) (lines : List Line) : Prop :=
  ∀ line ∈ lines, lowering.IsPlain rule line

variable {lowering : Lowering} {rule : StoreRule} {function block id value : ValueId}
variable {register base sourceBase : Register} {start sourceStart : Int} {size next : Nat}
variable {first second lines : List Line}

theorem StoreRule.Covers.whole (covers : rule.Covers base start size) : rule base start size := by
  have all := covers 0 size (Nat.le_of_eq (Nat.zero_add size))
  rwa [Int.natCast_zero, Int.add_zero] at all

theorem isPlain_of_silent {line : Line} (silent : line.isSilent = true) :
    lowering.IsPlain rule line := by
  simp only [Line.isSilent, Bool.and_eq_true, List.isEmpty_iff] at silent
  refine ⟨silent.1.1, ?_, ?_⟩
  · rw [silent.1.2]
    exact List.forall_mem_nil _
  · rw [silent.2]
    exact List.forall_mem_nil _

theorem plain_of_silent (lines : List Line) (silent : lines.all Line.isSilent = true) :
    lowering.Plain rule lines :=
  fun line member => isPlain_of_silent (List.all_eq_true.mp silent line member)

/-- A store of a register or of a constant. -/
theorem isPlain_store {width : Width} {source : Operand} (nameless : source.names = [])
    (allowed : rule base start width.bytes) :
    lowering.IsPlain rule (.mov width source (.memory base start)) := by
  refine ⟨rfl, ?_, List.forall_mem_singleton.mpr allowed⟩
  rw [Line.names, nameless]
  exact List.forall_mem_nil _

theorem isPlain_symbol (free : register.isReserved = false) (id : ValueId) :
    lowering.IsPlain rule (.lea (.relative (lowering.symbols.symbol id)) register) := by
  refine ⟨?_, List.forall_mem_singleton.mpr ⟨id, rfl⟩, List.forall_mem_nil _⟩
  rw [Line.isPlain, free]
  rfl

theorem isPlain_address (free : register.isReserved = false) :
    lowering.IsPlain rule (.lea (.memory base start) register) :=
  isPlain_of_silent (by
    simp [Line.isSilent, Line.isPlain, Line.stores, free])

/-! ### Pieces of memory -/

/-- The pieces of a stretch of memory lie within it. -/
theorem inside_of_mem_pieces {shift size : Nat} :
    ∀ piece ∈ pieces shift size, shift ≤ piece.1 ∧ piece.1 + piece.2.bytes ≤ shift + size := by
  induction size using Nat.strongRecOn generalizing shift with
  | ind size ih =>
    rw [pieces]
    split
    case isTrue => exact List.forall_mem_nil _
    case isFalse some' =>
      have less := pieceWidth_le (Nat.pos_of_ne_zero some')
      have positive := pieceWidth_pos size
      refine List.forall_mem_cons.mpr ⟨⟨Nat.le_refl _, by dsimp only; omega⟩, fun piece member => ?_⟩
      have inside := ih (size - (pieceWidth size).bytes) (by omega) piece member
      omega

theorem StoreRule.Covers.piece (covers : rule.Covers base start size) {piece : Nat × Width}
    (member : piece ∈ pieces 0 size) : rule base (start + piece.1) piece.2.bytes :=
  covers _ _ (by have inside := inside_of_mem_pieces piece member; omega)

theorem plain_copyMemory (covers : rule.Covers base start size) :
    lowering.Plain rule (copyMemory sourceBase sourceStart base start size) :=
  throughout_flatMap fun _ member => throughout_cons.mpr
    ⟨isPlain_of_silent rfl, throughout_singleton.mpr (isPlain_store rfl (covers.piece member))⟩

theorem plain_storeBytes {bytes : List UInt8} (covers : rule.Covers base start bytes.length) :
    lowering.Plain rule (storeBytes bytes base start) := by
  refine throughout_flatMap fun piece member => ?_
  have allowed := covers.piece member
  dsimp only [storePiece]
  split
  · exact throughout_singleton.mpr (isPlain_store rfl allowed)
  · exact throughout_cons.mpr
      ⟨isPlain_of_silent rfl, throughout_singleton.mpr (isPlain_store rfl allowed)⟩

/-! ### Moving values -/

/-- A symbol takes up the eight bytes of an address, whatever the size. -/
theorem plain_copyTo (covers : rule.Covers base start size)
    (address : ∀ symbol, lowering.source value = .ok (.symbol symbol) → rule.Covers base start 8) :
    Ensures (lowering.Plain rule) (lowering.copyTo value base start size) := by
  refine (Ensures.trivial _).bind fun source found _ => ?_
  cases source with
  | slot displacement => exact .of_ok (plain_copyMemory covers)
  | literal literal =>
    refine .of_ok (plain_storeBytes ?_)
    rwa [Literal.length_image]
  | symbol symbol =>
    have allowed := (address symbol found).whole
    rw [source_symbol found]
    exact .of_ok (throughout_cons.mpr
      ⟨isPlain_symbol rfl value, throughout_singleton.mpr (isPlain_store rfl allowed)⟩)

/-! ### Areas -/

/-- **The areas that a function reserves below its frame**, one at a time: for the arguments of a
call, and for the phis of an edge that are assigned by way of the stack. Without either of them there
is an empty area. -/
inductive Reserves (lowering : Lowering) : Nat → Prop
  | nothing : Reserves lowering 0
  | arguments {id callee : ValueId} {held : Function} {plan : CallPlan} :
    id ∈ lowering.subject.bodyOf lowering.function → lowering.subject.opcode? id = some .call →
    lowering.callee id = .ok (callee, held) →
    lowering.convention.plan ((lowering.trailingValues id).map lowering.subject.typeOf)
      held.signature.result = .ok plan → Reserves lowering plan.stackSize
  | phis {id source target : ValueId} {slot : Nat} {sized : List ((ValueId × ValueId) × Nat)} :
    source ∈ lowering.subject.blocksOf lowering.function →
    id ∈ lowering.subject.instructionsOf source → lowering.target id slot = .ok target →
    isHazardous (phiCopies lowering.subject source target) = true →
    (phiCopies lowering.subject source target).mapM (fun copy => do
      return (copy, ← lowering.sizeOf copy.1)) = .ok sized →
    Reserves lowering (roundUp (stage 0 sized).2 16)

/-- Areas are multiples of sixteen bytes. -/
theorem Reserves.dvd {area : Nat} (reserves : lowering.Reserves area) : 16 ∣ area := by
  cases reserves with
  | nothing => exact Nat.dvd_zero 16
  | arguments inside kind called planned => exact Convention.dvd_stackSize planned
  | phis inside listed leads hazardous sizes => exact dvd_roundUp _ (by decide)

/-! ### Instructions -/

/-- **Rules for stores that allow those of the code.** There is a rule for each size of the area that
is reserved below the frame: home slots and the area may be stored to, and whatever a pointer of the
program, or of the caller, points at. -/
structure Fair (lowering : Lowering) (rules : Nat → StoreRule) : Prop where
  slot : ∀ {area value start size}, lowering.slot value = .ok start →
    (lowering.subject.typeOf value).size = .ok size → (rules area).Covers .rbp start size
  /-- An address comes in for a phi that has room for it. -/
  incoming : ∀ {area id slot source target copy base start size symbol},
    id ∈ lowering.subject.bodyOf lowering.function → lowering.target id slot = .ok target →
    copy ∈ phiCopies lowering.subject source target →
    (lowering.subject.typeOf copy.1).size = .ok size →
    lowering.source copy.2 = .ok (.symbol symbol) →
    (rules area).Covers base start size → (rules area).Covers base start 8
  area : ∀ {area start size : Nat}, lowering.Reserves area → start + size ≤ area →
    (rules area).Covers .rsp (signed64 start) size
  pointer : ∀ {area start size}, (rules area).Covers .r11 start size
  result : ∀ {area start size}, (rules area).Covers resultPointer start size

/-- Every store may be made. -/
theorem fair_of_all (lowering : Lowering) : lowering.Fair fun _ _ _ _ => True := by
  constructor <;> intros <;> exact fun _ _ _ => trivial

namespace Fair

variable {rules : Nat → StoreRule} {area : Nat} {type : Ty}

/-- The lines that most code is made of are plain. -/
theorem admits (fair : lowering.Fair rules) (area : Nat) :
    lowering.Admits (lowering.IsPlain (rules area)) where
  quiet quiet := isPlain_of_silent (Bool.and_eq_true_iff.mp quiet).1
  symbol free id := isPlain_symbol free id
  read _ free _ _ := isPlain_of_silent (by
    simp [Line.isSilent, Line.isPlain, Line.stores, free])
  write home size _ := isPlain_store rfl (fair.slot home size).whole
  slot _ free := isPlain_address free
  storage _ := isPlain_address rfl

theorem load (fair : lowering.Fair rules) :
    Ensures (lowering.Plain (rules area)) (lowering.load id) := by
  refine (Ensures.trivial _).bind fun pointer _ _ => ?_
  refine (Ensures.trivial _).bind fun size sized _ => ?_
  refine (Ensures.trivial _).bind fun start home _ => ?_
  refine ((fair.admits area).loadInt rfl pointer false).bind fun lines _ plain => .of_ok ?_
  exact throughout_append.mpr ⟨plain, plain_copyMemory (fair.slot home (ok_of_mapError sized))⟩

theorem store (fair : lowering.Fair rules) :
    Ensures (lowering.Plain (rules area)) (lowering.store id) := by
  refine (Ensures.trivial _).bind fun pointer _ _ => ?_
  refine (Ensures.trivial _).bind fun value _ _ => ?_
  refine (Ensures.trivial _).bind fun size _ _ => ?_
  refine ((fair.admits area).loadInt rfl pointer false).bind fun load _ plain => ?_
  have anywhere : (rules area).Covers .r11 0 size := fair.pointer
  refine (plain_copyTo anywhere fun _ _ => fair.pointer).bind fun copy _ plain' => ?_
  exact .of_ok (throughout_append.mpr ⟨plain, plain'⟩)

end Fair

/-! ### Calls -/

/-- A value that is read from a symbol is as large as an address. -/
theorem size_of_symbol {symbol : String} (source : lowering.source value = .ok (.symbol symbol))
    (sized : (lowering.subject.typeOf value).size = .ok size) : size = 8 := by
  rw [Lowering.source] at source
  split at source
  case h_1 => cases source
  case h_2 held found =>
    have known : lowering.subject.global? value = some held := by rw [Module.global?, found]
    rw [Module.typeOf_global known] at sized
    exact (Except.ok.inj sized).symm
  case h_3 held found =>
    have known : lowering.subject.function? value = some held := by rw [Module.function?, found]
    rw [Module.typeOf_function known] at sized
    cases sized
  case h_4 => cases source
  case h_5 =>
    obtain ⟨_, _, other⟩ := ok_of_map source
    cases other

/-- An argument that is copied into the area. -/
theorem Fair.copyToArea {rules : Nat → StoreRule} {area offset : Nat} (fair : lowering.Fair rules)
    (reserves : lowering.Reserves area) (sized : (lowering.subject.typeOf value).size = .ok size)
    (room : offset + size ≤ area) :
    Ensures (lowering.Plain (rules area)) (lowering.copyTo value .rsp (signed64 offset) size) := by
  refine plain_copyTo (fair.area reserves room) fun symbol source => fair.area reserves ?_
  rwa [size_of_symbol source sized] at room

theorem Fair.placeInMemory {rules : Nat → StoreRule} {area : Nat} {plan : ArgumentPlan}
    (fair : lowering.Fair rules) (reserves : lowering.Reserves area)
    (inside : ∀ range ∈ plan.ranges (lowering.subject.typeOf value).bytes,
      range.1 + range.2 ≤ area) :
    Ensures (lowering.Plain (rules area)) (lowering.placeInMemory value plan) := by
  refine (Ensures.trivial _).bind fun size sized _ => ?_
  have sized := ok_of_mapError sized
  rw [Ty.bytes_eq sized, ArgumentPlan.ranges] at inside
  split
  case h_1 copied offset copy place =>
    simp only [copy, place, List.forall_mem_cons] at inside
    have store : lowering.IsPlain (rules area)
        (.mov .quad (.full .rax) (.memory .rsp (signed64 offset))) :=
      isPlain_store rfl (fair.area reserves inside.2.1).whole
    refine (fair.copyToArea reserves sized inside.1).bind fun lines _ plain => .of_ok ?_
    exact throughout_append.mpr ⟨plain, throughout_cons.mpr
      ⟨isPlain_address rfl, throughout_singleton.mpr store⟩⟩
  case h_2 copied copy other =>
    rw [copy] at inside
    refine fair.copyToArea reserves sized (inside (copied, size) ?_)
    cases plan.place <;> exact List.mem_cons_self
  case h_3 offset copy place =>
    simp only [copy, place, List.forall_mem_cons] at inside
    exact fair.copyToArea reserves sized inside.1
  case h_4 => exact .of_ok throughout_nil

/-! ### Edges -/

/-- Reserves an area below the frame, whatever its size, or releases it. -/
def moveStack (operation : Arithmetic) (area : Nat) : Line :=
  .arithmetic operation .quad (.immediate (signed64 area)) (.full .rsp)

/-- **The code that assigns phis**: plain, or by way of an area. -/
inductive Assigning (lowering : Lowering) (rules : Nat → StoreRule) : List Line → Prop
  | direct {lines : List Line} : lowering.Plain (rules 0) lines → Assigning lowering rules lines
  | staged {lines : List Line} {area : Nat} : lowering.Reserves area →
    lowering.Plain (rules area) lines →
    Assigning lowering rules (moveStack .sub area :: (lines ++ [moveStack .add area]))

section Edges

variable {rules : Nat → StoreRule} {slot : Nat} {source target : ValueId}
variable {sized : List ((ValueId × ValueId) × Nat)}

/-- Copies whose phis have the sizes that they are copied with. -/
def Measured (lowering : Lowering) (copies : List (ValueId × ValueId))
    (sized : List ((ValueId × ValueId) × Nat)) : Prop :=
  ∀ entry ∈ sized, entry.1 ∈ copies ∧ (lowering.subject.typeOf entry.1.1).size = .ok entry.2

theorem measured_of_mapM {copies : List (ValueId × ValueId)}
    (done : copies.mapM (fun copy => do return (copy, ← lowering.sizeOf copy.1)) = .ok sized) :
    lowering.Measured copies sized := by
  refine Ensures.mapM (fun copy listed => ?_) sized done
  exact (Ensures.trivial _).bind fun size found _ => .of_ok ⟨listed, ok_of_mapError found⟩

theorem Fair.copyDirectly (fair : lowering.Fair rules)
    (inside : id ∈ lowering.subject.bodyOf lowering.function)
    (leads : lowering.target id slot = .ok target)
    (measured : lowering.Measured (phiCopies lowering.subject source target) sized) :
    Ensures (lowering.Plain (rules 0)) (lowering.copyDirectly sized) := by
  have each : ∀ entry ∈ sized, Ensures (lowering.Plain (rules 0)) (do
      lowering.copyTo entry.1.2 .rbp (← lowering.slot entry.1.1) entry.2) := by
    intro entry member
    obtain ⟨listed, size⟩ := measured entry member
    refine (Ensures.trivial _).bind fun start home _ => ?_
    have covers : (rules 0).Covers .rbp start entry.2 := fair.slot home size
    exact plain_copyTo covers fun _ address => fair.incoming inside leads listed size address covers
  exact (Ensures.mapM each).bind fun parts _ plain => .of_ok (throughout_flatten plain)

theorem Fair.copyStaged (fair : lowering.Fair rules)
    (inside : id ∈ lowering.subject.bodyOf lowering.function)
    (leads : lowering.target id slot = .ok target)
    (measured : lowering.Measured (phiCopies lowering.subject source target) sized)
    (reserves : lowering.Reserves (roundUp (stage 0 sized).2 16)) :
    Ensures (lowering.Assigning rules) (lowering.copyStaged sized) := by
  have reads : ∀ copy ∈ (stage 0 sized).1, Ensures
      (lowering.Plain (rules (roundUp (stage 0 sized).2 16)))
      (lowering.copyTo copy.value .rsp (signed64 copy.offset) copy.size) := by
    intro copy member
    obtain ⟨staged, room⟩ := staged_of_mem member
    obtain ⟨listed, size⟩ := measured _ staged
    have covers := fair.area reserves room
    exact plain_copyTo covers fun _ address => fair.incoming inside leads listed size address covers
  have writes : ∀ copy ∈ (stage 0 sized).1.reverse, Ensures
      (lowering.Plain (rules (roundUp (stage 0 sized).2 16))) (do
        return copyMemory .rsp (signed64 copy.offset) .rbp (← lowering.slot copy.phi) copy.size) := by
    intro copy member
    obtain ⟨_, size⟩ := measured _ (staged_of_mem (List.mem_reverse.mp member)).1
    exact (Ensures.trivial _).bind fun start home _ =>
      .of_ok (plain_copyMemory (fair.slot home size))
  rw [Lowering.copyStaged]
  refine (Ensures.mapM reads).bind fun reads _ plain => ?_
  refine (Ensures.mapM writes).bind fun writes _ plain' => .of_ok ?_
  exact .staged reserves
    (throughout_append.mpr ⟨throughout_flatten plain, throughout_flatten plain'⟩)

theorem Fair.assignPhis (fair : lowering.Fair rules)
    (inside : source ∈ lowering.subject.blocksOf lowering.function)
    (listed : id ∈ lowering.subject.instructionsOf source)
    (leads : lowering.target id slot = .ok target) :
    Ensures (lowering.Assigning rules) (lowering.assignPhis source target) := by
  have body : id ∈ lowering.subject.bodyOf lowering.function :=
    List.mem_flatMap.mpr ⟨source, inside, listed⟩
  refine (Ensures.trivial _).bind fun sized done _ => ?_
  have measured := measured_of_mapM done
  split
  case isTrue hazardous =>
    exact fair.copyStaged body leads measured (.phis inside listed leads hazardous done)
  case isFalse =>
    intro lines code
    exact .direct (fair.copyDirectly body leads measured lines code)

end Edges

/-! ### All instructions -/

/-- **The code of an edge**: the assignment of the phis and the jump to a target that is named. -/
inductive Edge (lowering : Lowering) (rules : Nat → StoreRule) (id : ValueId) : List Line → Prop
  | jump {lines : List Line} {slot : Nat} {target : ValueId} :
    lowering.Assigning rules lines → lowering.target id slot = .ok target →
    Edge lowering rules id (lines ++ [.jump (lowering.label target)])

/-- **The code of an instruction**, where `next` is the number of the next label; whether control
leaves it for elsewhere than the next line; and the number of the next label after it. -/
inductive Shape (lowering : Lowering) (rules : Nat → StoreRule) (id : ValueId) (next : Nat) :
    Bool → List Line → Nat → Prop
  | plain {lines : List Line} : lowering.Plain (rules 0) lines →
    Shape lowering rules id next false lines next
  | call {placed stored : List Line} {area : Nat} (callee : ValueId) : lowering.Reserves area →
    lowering.Plain (rules area) placed → lowering.Plain (rules 0) stored →
    Shape lowering rules id next false (adjustStack .sub area ++ placed ++
      [.call (lowering.symbols.symbol callee)] ++ adjustStack .add area ++ stored) next
  | branch {edge : List Line} : lowering.Edge rules id edge →
    Shape lowering rules id next true edge next
  | branchIf {test edge : List Line} {slot : Nat} {target : ValueId} :
    lowering.Plain (rules 0) test → lowering.target id slot = .ok target →
    lowering.Edge rules id edge →
    Shape lowering rules id next true
      (test ++ .jumpIf .notEqual (lowering.label target) :: edge) next
  /-- The edge that is taken if the condition holds has a label of its own. -/
  | branchBoth {test ifFalse ifTrue : List Line} : lowering.Plain (rules 0) test →
    lowering.Edge rules id ifFalse → lowering.Edge rules id ifTrue →
    Shape lowering rules id next true (test ++
      .jumpIf .notEqual (lowering.options.platform.label next) :: ifFalse ++
        .label (lowering.options.platform.label next) :: ifTrue) (next + 1)
  | ret {lines : List Line} : lowering.Plain (rules 0) lines →
    Shape lowering rules id next true (lines ++ epilogue) next
  | trap : Shape lowering rules id next true [.trap] next

namespace Fair

variable {rules : Nat → StoreRule}

theorem call (fair : lowering.Fair rules)
    (inside : id ∈ lowering.subject.bodyOf lowering.function)
    (kind : lowering.subject.opcode? id = some .call) :
    Ensures (lowering.Shape rules id next false · next) (lowering.call id) := by
  refine (Ensures.trivial _).bind fun called known _ => ?_
  obtain ⟨callee, held⟩ := called
  refine (Ensures.trivial _).bind fun plan planned _ => ?_
  have planned := ok_of_mapError planned
  have reserves : lowering.Reserves plan.stackSize := .arguments inside kind known planned
  have admits := fair.admits plan.stackSize
  have free := free_of_plan planned (lowering.trailingValues id)
  refine (Ensures.mapM fun entry member =>
    fair.placeInMemory reserves (inside_of_plan planned entry member)).bind
    fun toMemory _ memory => ?_
  refine (Ensures.mapM fun entry member => admits.placeInRegister (free entry member)
    fun _ _ _ free => isPlain_address free).bind fun toRegisters _ registers => ?_
  refine admits.passResultAddress.bind fun address _ plain => ?_
  refine (fair.admits 0).storeResult.bind fun result _ stored => .of_ok ?_
  have placed := throughout_append.mpr ⟨throughout_append.mpr ⟨throughout_append.mpr
    ⟨throughout_flatten memory, throughout_flatten registers⟩, plain⟩,
    admits.passVectorCount held.signature.variadic planned⟩
  have shape : lowering.Shape rules id next false _ next := .call callee reserves placed stored
  simpa only [List.append_assoc] using shape

theorem edge (fair : lowering.Fair rules)
    (inside : block ∈ lowering.subject.blocksOf lowering.function)
    (listed : id ∈ lowering.subject.instructionsOf block) {slot : Nat} {target : ValueId}
    (leads : lowering.target id slot = .ok target) :
    Ensures (lowering.Edge rules id) (lowering.edge block target) :=
  (fair.assignPhis inside listed leads).bind fun _ _ assigning => .of_ok (.jump assigning leads)

theorem branch (fair : lowering.Fair rules)
    (inside : block ∈ lowering.subject.blocksOf lowering.function)
    (listed : id ∈ lowering.subject.instructionsOf block) :
    Ensures (lowering.Edge rules id) (lowering.branch block id) :=
  (Ensures.trivial _).bind fun _ leads _ => fair.edge inside listed leads

theorem branchIf (fair : lowering.Fair rules)
    (inside : block ∈ lowering.subject.blocksOf lowering.function)
    (listed : id ∈ lowering.subject.instructionsOf block) :
    Ensures (fun code => lowering.Shape rules id next true code.1 code.2)
      (lowering.branchIf next block id) := by
  rw [Lowering.branchIf]
  split
  · exact .of_error
  · rename_i condition _
    refine (Ensures.trivial _).bind fun ifTrue leads _ => ?_
    refine (Ensures.trivial _).bind fun ifFalse leads' _ => ?_
    refine ((fair.admits 0).loadInt rfl condition false).bind fun load _ plain => ?_
    have test := throughout_append.mpr ⟨plain, plain_of_silent
      [.arithmetic .test .quad (.full .rax) (.full .rax)] rfl⟩
    refine (fair.edge inside listed leads').bind fun falseEdge _ edge => ?_
    split
    · exact .of_ok (.branchIf test leads edge)
    · exact (fair.edge inside listed leads).bind fun trueEdge _ edge' =>
        .of_ok (.branchBoth test edge edge')

theorem ret (fair : lowering.Fair rules) :
    Ensures (lowering.Shape rules id next true · next) (lowering.ret id) := by
  rw [Lowering.ret]
  split
  · rename_i value _
    have returned : Ensures (lowering.Plain (rules 0)) (lowering.returnValue value) := by
      rw [returnValue]
      split
      · exact (fair.admits 0).loadInt rfl value false
      · refine ((fair.admits 0).loadInt rfl value false).bind fun lines _ plain => .of_ok ?_
        exact throughout_append.mpr ⟨plain, plain_of_silent _ rfl⟩
      · refine (Ensures.trivial _).bind fun size _ _ => ?_
        have covers : (rules 0).Covers resultPointer 0 size := fair.result
        refine (plain_copyTo covers fun _ _ => fair.result).bind fun lines _ plain => .of_ok ?_
        exact throughout_append.mpr ⟨plain, plain_of_silent _ rfl⟩
      · exact .of_ok throughout_nil
    exact returned.bind fun lines _ plain => .of_ok (.ret plain)
  · exact .of_ok (.ret throughout_nil)

/-- **The code of an instruction is made of plain pieces and little else**, and control leaves that
of a terminator. -/
theorem shape_instruction (fair : lowering.Fair rules)
    (inside : block ∈ lowering.subject.blocksOf lowering.function)
    (listed : id ∈ lowering.subject.instructionsOf block) :
    Ensures (fun code => lowering.Shape rules id next
        (lowering.subject.hasOpcode Opcode.isTerminator id) code.1 code.2)
      (lowering.instruction next block id) := by
  have plain : ∀ {code : Except Failure (List Line)}, Ensures (lowering.Plain (rules 0)) code →
      Ensures (fun result => lowering.Shape rules id next false result.1 result.2) (do
        return (← code, next)) := fun plain =>
    plain.bind fun lines _ plain => .of_ok (.plain plain)
  rw [Lowering.instruction, Module.hasOpcode]
  cases kind : lowering.subject.opcode? id with
  | none => exact .of_ok (.plain throughout_nil)
  | some opcode =>
    cases opcode with
    | alloc type => exact plain (fair.admits 0).alloc
    | load => exact plain fair.load
    | store => exact plain fair.store
    | binary operation => exact plain ((fair.admits 0).binary operation)
    | compare predicate => exact plain ((fair.admits 0).compare predicate)
    | convert conversion target => exact plain ((fair.admits 0).convert conversion target)
    | gep => exact plain (fair.admits 0).gep
    | call =>
      have body := List.mem_flatMap.mpr ⟨block, inside, listed⟩
      exact (fair.call body kind).bind fun lines _ shape => .of_ok shape
    | br => exact (fair.branch inside listed).bind fun lines _ edge => .of_ok (.branch edge)
    | condbr => exact fair.branchIf inside listed
    | ret => exact fair.ret.bind fun lines _ shape => .of_ok shape
    | unreachable => exact .of_ok .trap
    | phi type => exact .of_ok (.plain throughout_nil)

/-! ### Parameters -/

/-- The moves of the parameters are plain. -/
theorem saveParameters (fair : lowering.Fair rules) :
    Ensures (lowering.Plain (rules 0)) lowering.saveParameters := by
  refine Ensures.bind (Ensures.mapM fun entry _ => ?_)
    fun parts _ plain => .of_ok (throughout_flatten plain)
  refine (Ensures.trivial _).bind fun start home _ => ?_
  refine (Ensures.trivial _).bind fun size sized _ => ?_
  split
  · refine .of_ok (throughout_append.mpr
      ⟨plain_of_silent [_] ?_, plain_copyMemory (fair.slot home (ok_of_mapError sized))⟩)
    cases entry.2.place <;> rfl
  · exact (fair.admits 0).storeRegister _ _
  · refine ((fair.admits 0).storeRegister _ _).bind fun lines _ stored => .of_ok ?_
    exact throughout_append.mpr ⟨plain_of_silent [_] rfl, stored⟩
  · exact .of_ok (plain_copyMemory (fair.slot home (ok_of_mapError sized)))

end Fair

/-! ### Data -/

/-- **The initial bytes of a global are data**, which carries no names but symbols. -/
theorem data_initialData {m : Module} (symbols : Symbols) (initialiser : Initialiser) :
    Ensures (fun lines => ∀ line ∈ lines, line.isData = true ∧
        ∀ name ∈ line.names, ∃ id, symbols.symbol id = name)
      (initialData m symbols id size initialiser) := by
  cases initialiser with
  | zero =>
    refine .of_ok ?_
    split
    · exact List.forall_mem_singleton.mpr ⟨rfl, List.forall_mem_nil _⟩
    · exact List.forall_mem_nil _
  | global other =>
    rw [initialData]
    split
    · exact .of_ok (List.forall_mem_singleton.mpr
        ⟨rfl, List.forall_mem_singleton.mpr ⟨other, rfl⟩⟩)
    · exact .of_error
  | literal value =>
    refine (Ensures.trivial _).bind fun literalSize _ _ => ?_
    split
    · rename_i literal _
      split
      · refine .of_ok (List.forall_mem_singleton.mpr ?_)
        unfold literalData
        split
        · exact ⟨rfl, List.forall_mem_nil _⟩
        · split <;> exact ⟨rfl, List.forall_mem_nil _⟩
      · exact .of_error
    · exact .of_error

end Lowering

end SsaAmd64
