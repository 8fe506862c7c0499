/-
**Constants that fit.**

An instruction has room for a constant of 32 bits, which it extends by its sign. Constants that
stand for values of the program are tested, and one that does not fit is moved into a register first,
as a constant of 64 bits. Those that come from sizes are not: the size of a frame or of an area, and
the displacements into them. So all lines of a program can be encoded if these numbers fit, and not
otherwise.

* `Asm.Line.isEncodable`: whether the constants of a line fit;
* `Lowering.Emitted.isEncodable`: those of the lines that are made for a function do, if its numbers
  are small;
* `Lowering.Grounded.overlong_lines`: a number that is not small is found in one of them;
* `Module.assemble_encodable`: both, for the code of a module.
-/

import SsaAmd64.Proofs.Lowering.Correctness
import SsaAmd64.Proofs.Lowering.Emitted

namespace SsaAmd64

namespace Asm

def Operand.isEncodable : Operand → Bool
  | immediate value => fits32 value
  | memory _ displacement => fits32 displacement
  | register .. | relative _ => true

/-- **Whether the constants of a line fit.** Only a `movabs` has room for 64 bits. -/
def Line.isEncodable : Line → Bool
  | mov _ source target | arithmetic _ _ source target => source.isEncodable && target.isEncodable
  | extend _ _ source _ | lea source _ | divide _ _ source => source.isEncodable
  | scale factor _ _ => fits32 factor
  | _ => true

/-- **Lines of which one does not have the room for its constants.** -/
def Overlong (lines : List Line) : Prop :=
  ∃ line ∈ lines, line.isEncodable = false

theorem Overlong.of_subset {part whole : List Line} (overlong : Overlong part)
    (within : part ⊆ whole) : Overlong whole := by
  obtain ⟨line, member, wide⟩ := overlong
  exact ⟨line, within member, wide⟩

theorem overlong_cons {line : Line} {lines : List Line} (wide : line.isEncodable = false) :
    Overlong (line :: lines) :=
  ⟨line, List.mem_cons_self, wide⟩

theorem Operand.isEncodable_of_isDirect {width : Width} {operand : Operand}
    (direct : operand.isDirect width = true) : operand.isEncodable = true := by
  cases operand with
  | register | relative => rfl
  | immediate => exact direct
  | memory => cases direct

/-- The constants of direct lines have been tested. -/
theorem Line.isEncodable_of_isDirect {line : Line} (direct : line.isDirect = true) :
    line.isEncodable = true := by
  cases line with
  | mov width source target | arithmetic _ width source target =>
    cases target with
    | register register named =>
      obtain ⟨_, direct⟩ := Bool.and_eq_true_iff.mp direct
      exact Bool.and_eq_true_iff.mpr ⟨Operand.isEncodable_of_isDirect direct, rfl⟩
    | immediate | memory | relative => cases direct
  | lea source target =>
    cases source with
    | relative => rfl
    | register | immediate | memory => cases direct
  | divide _ width source => exact Operand.isEncodable_of_isDirect direct
  | scale factor source target => exact direct
  | extend => cases direct
  | _ => rfl

end Asm

namespace Lowering

open Asm

variable {lowering : Lowering} {id value block source target : ValueId} {base : Register}
variable {start : Int} {size number next after : Nat} {line : Line} {lines : List Line}

theorem isEncodable_moveStack (operation : Arithmetic) (size : Nat) :
    (moveStack operation size).isEncodable = fits32 (signed64 size) := by
  simp only [moveStack, Line.isEncodable, Operand.isEncodable, Operand.full, Bool.and_true]

/-! ### Numbers that are small -/

/-- **Displacements fit**, if the numbers of the function do. -/
theorem Address.fits32_eq (address : lowering.Address base start) (grounded : lowering.Grounded)
    (small : ∀ number ∈ lowering.untested, number < 0x80000000) : fits32 start = true := by
  rw [fits32_iff]
  have frame := small _ grounded.frame_mem
  have rounded : lowering.frame.depth ≤ lowering.frame.size := le_roundUp _ 16
  cases address with
  | @home id start offset home inside =>
    obtain ⟨depth, low, rfl, _⟩ := grounded.exists_depth_of_slot home
    rw [Frame.displacement, signed64_of_small _ (by omega) (by omega)]
    omega
  | storage found =>
    obtain ⟨depth, low, rfl⟩ := Frame.exists_depth_of_storage? grounded.framed found
    rw [Frame.displacement, signed64_of_small _ (by omega) (by omega)]
    omega
  | incoming reserved inside =>
    have bound := small _ reserved
    rw [incomingDisplacement, Frame.incomingArguments, signed64_of_small _ (by omega) (by omega)]
    omega
  | area reserved inside =>
    have bound := small _ reserved
    rw [signed64_of_small _ (by omega) (by omega)]
    omega
  | pointed pointer reserved inside =>
    have bound := small _ reserved
    omega

/-- **The constants of the lines of a function fit**, if its numbers do. -/
theorem Emitted.isEncodable (emitted : lowering.Emitted line) (grounded : lowering.Grounded)
    (small : ∀ number ∈ lowering.untested, number < 0x80000000) : line.isEncodable = true := by
  cases emitted with
  | direct direct => exact Line.isEncodable_of_isDirect direct
  | load address =>
    exact Bool.and_eq_true_iff.mpr ⟨address.fits32_eq grounded small, rfl⟩
  | store address => exact address.fits32_eq grounded small
  | fill fits address =>
    exact Bool.and_eq_true_iff.mpr ⟨fits, address.fits32_eq grounded small⟩
  | extend address | address address => exact address.fits32_eq grounded small
  | stack reserved =>
    have bound := small _ reserved
    rw [isEncodable_moveStack, fits32_iff, signed64_of_small _ (by omega) (by omega)]
    omega

/-! ### Numbers that are not -/

/-- **A number that is a word, but too large for a constant of 32 bits.** -/
def Outgrows (number : Nat) : Prop :=
  0x80000000 ≤ number ∧ number < 0x8000000000000000

theorem Outgrows.fits32_eq {number : Nat} {value : Int} (outgrows : Outgrows number)
    (same : value = number) : fits32 value = false := by
  obtain ⟨large, _⟩ := outgrows
  rw [Bool.eq_false_iff, Ne, fits32_iff]
  omega

theorem Outgrows.moveStack (outgrows : Outgrows size) (operation : Arithmetic) :
    (moveStack operation size).isEncodable = false := by
  have word := outgrows.2
  rw [isEncodable_moveStack]
  exact outgrows.fits32_eq (signed64_of_small _ (by omega) (by omega))

theorem Outgrows.adjustStack (outgrows : Outgrows size) (operation : Arithmetic) :
    Overlong (adjustStack operation size) := by
  have large := outgrows.1
  rw [Lowering.adjustStack, if_neg (by omega)]
  exact overlong_cons (outgrows.moveStack operation)

/-- The last piece of a copy is read from too far away. -/
theorem overlong_copyMemory {targetBase : Register} {targetStart : Int} (some' : 0 < size)
    (wide : fits32 (start + lastPiece size) = false) :
    Overlong (copyMemory base start targetBase targetStart size) := by
  obtain ⟨width, member⟩ := @exists_lastPiece 0 _ some'
  rw [Nat.zero_add] at member
  refine ⟨_, List.mem_flatMap.mpr ⟨_, member, List.mem_cons_self⟩, ?_⟩
  exact Bool.and_eq_false_iff.mpr (.inl wide)

/-- The last piece of a constant is stored too far away. -/
theorem overlong_storeBytes {bytes : List UInt8} (some' : 0 < bytes.length)
    (wide : fits32 (start + lastPiece bytes.length) = false) :
    Overlong (storeBytes bytes base start) := by
  obtain ⟨width, member⟩ := @exists_lastPiece 0 _ some'
  rw [Nat.zero_add] at member
  have target : ∀ width source, (Line.mov width source
      (.memory base (start + (lastPiece bytes.length : Nat)))).isEncodable = false :=
    fun _ _ => Bool.and_eq_false_iff.mpr (.inr wide)
  have last : Overlong (storePiece width ((bytes.drop (lastPiece bytes.length)).take width.bytes)
      (.memory base (start + (lastPiece bytes.length : Nat)))) := by
    rw [storePiece]
    split
    · exact overlong_cons (target _ _)
    · exact ⟨_, List.mem_cons_of_mem _ List.mem_cons_self, target _ _⟩
  exact last.of_subset fun line inside => List.mem_flatMap.mpr ⟨_, member, inside⟩

/-- A literal that is stored where a pointer points. -/
theorem overlong_copyTo (member : number ∈ lowering.subject.literalPiece value)
    (outgrows : Outgrows number) (sized : lowering.sizeOf value = .ok size)
    (code : lowering.copyTo value base 0 size = .ok lines) : Overlong lines := by
  have large := outgrows.1
  rw [Module.literalPiece, Ty.bytes_eq (ok_of_mapError sized)] at member
  split at member
  case isFalse => cases member
  case isTrue known =>
    obtain rfl := List.mem_singleton.mp member
    obtain ⟨literal, known⟩ := Option.isSome_iff_exists.mp known
    obtain ⟨source, found, code⟩ := ok_of_bind code
    obtain rfl := Except.ok.inj ((source_of_literal known).symm.trans found)
    cases code
    have whole : lastPiece size ≤ size := Nat.sub_le _ _
    have length := literal.length_image size
    refine overlong_storeBytes (by omega) ?_
    rw [length, Int.zero_add]
    exact outgrows.fits32_eq rfl

theorem overlong_edge (outgrows : Outgrows (stagingArea lowering.subject source target))
    (code : lowering.edge source target = .ok lines) : Overlong lines := by
  obtain ⟨assigned, phis, code⟩ := ok_of_bind code
  cases code
  obtain ⟨sized, sizes, phis⟩ := ok_of_bind phis
  split at phis
  case isTrue hazardous =>
    rw [stagingArea_of_sizes sizes hazardous] at outgrows
    obtain ⟨reads, _, phis⟩ := ok_of_bind phis
    obtain ⟨writes, _, phis⟩ := ok_of_bind phis
    cases phis
    exact overlong_cons (outgrows.moveStack .sub)
  case isFalse calm =>
    have none : stagingArea lowering.subject source target = 0 := if_neg calm
    have large := outgrows.1
    omega

theorem overlong_branchIf
    (member : number ∈ ((lowering.subject.operand? id 1).toList ++
      (lowering.subject.operand? id 2).toList).map (stagingArea lowering.subject block))
    (outgrows : Outgrows number)
    (code : lowering.branchIf next block id = .ok (lines, after)) : Overlong lines := by
  have large := outgrows.1
  rw [Lowering.branchIf] at code
  split at code
  case h_1 => cases code
  case h_2 =>
    obtain ⟨ifTrue, leads, code⟩ := ok_of_bind code
    obtain ⟨ifFalse, leads', code⟩ := ok_of_bind code
    obtain ⟨load, _, code⟩ := ok_of_bind code
    obtain ⟨falseEdge, edge, code⟩ := ok_of_bind code
    rw [operand?_of_target leads, operand?_of_target leads'] at member
    simp only [Option.toList_some, List.cons_append, List.nil_append, List.map_cons, List.map_nil,
      List.mem_cons, List.not_mem_nil, or_false] at member
    split at code
    case isTrue empty =>
      cases code
      -- without phis nothing is staged on the way to the target
      have none : stagingArea lowering.subject block ifTrue = 0 := by
        rw [stagingArea, List.isEmpty_iff.mp empty]
        rfl
      rcases member with rfl | rfl
      · omega
      · exact (overlong_edge outgrows edge).of_subset fun _ inside => by simp [inside]
    case isFalse =>
      obtain ⟨trueEdge, edge', code⟩ := ok_of_bind code
      cases code
      rcases member with rfl | rfl
      · exact (overlong_edge outgrows edge').of_subset fun _ inside => by simp [inside]
      · exact (overlong_edge outgrows edge).of_subset fun _ inside => by simp [inside]

theorem overlong_ret (result : lowering.plan.result = some .memory)
    (member : number ∈ (lowering.subject.operand? id 0).toList.flatMap
      lowering.subject.literalPiece)
    (outgrows : Outgrows number) (code : lowering.ret id = .ok lines) : Overlong lines := by
  rw [Lowering.ret] at code
  split at code
  case h_2 empty =>
    rw [empty] at member
    cases member
  case h_1 value filled =>
    rw [filled] at member
    have member : number ∈ lowering.subject.literalPiece value := by simpa using member
    obtain ⟨returned, back, code⟩ := ok_of_bind code
    cases code
    rw [returnValue, result] at back
    obtain ⟨size, sized, back⟩ := ok_of_bind back
    obtain ⟨copy, copied, back⟩ := ok_of_bind back
    cases back
    exact (overlong_copyTo member outgrows sized copied).of_subset fun _ inside => by simp [inside]

/-- **A number of an instruction that is not small is found in its code.** -/
theorem overlong_instruction
    (member : number ∈ lowering.subject.untestedIn lowering.convention lowering.plan block id)
    (outgrows : Outgrows number)
    (code : lowering.instruction next block id = .ok (lines, after)) : Overlong lines := by
  have made : ∀ {code : Except Failure (List Line)},
      (do return (← code, next)) = .ok (lines, after) → code = .ok lines := by
    intro code done
    obtain ⟨_, here, done⟩ := ok_of_bind done
    cases done
    exact here
  rw [Module.untestedIn] at member
  rw [Lowering.instruction] at code
  split at member
  -- a call reserves its area
  case h_1 kind =>
    rw [kind] at code
    obtain ⟨⟨callee, held⟩, called, code⟩ := ok_of_bind (made code)
    obtain ⟨plan, planned, code⟩ := ok_of_bind code
    rw [callPlan?_of_callee called (ok_of_mapError planned)] at member
    obtain rfl := List.mem_singleton.mp member
    obtain ⟨_, _, code⟩ := ok_of_bind code
    obtain ⟨_, _, code⟩ := ok_of_bind code
    obtain ⟨_, _, code⟩ := ok_of_bind code
    obtain ⟨_, _, code⟩ := ok_of_bind code
    cases code
    exact (outgrows.adjustStack .sub).of_subset fun _ inside => by simp [inside]
  -- edges stage their phis
  case h_2 kind =>
    rw [kind] at code
    obtain ⟨target, leads, code⟩ := ok_of_bind (made code)
    rw [operand?_of_target leads] at member
    obtain rfl := List.mem_singleton.mp member
    exact overlong_edge outgrows code
  case h_3 kind =>
    rw [kind] at code
    exact overlong_branchIf member outgrows code
  -- literals are stored in pieces
  case h_4 kind =>
    rw [kind] at code
    obtain ⟨pointer, _, code⟩ := ok_of_bind (made code)
    obtain ⟨value, filled, code⟩ := ok_of_bind code
    obtain ⟨size, sized, code⟩ := ok_of_bind code
    obtain ⟨load, _, code⟩ := ok_of_bind code
    obtain ⟨copy, copied, code⟩ := ok_of_bind code
    cases code
    rw [operand?_of_operand filled] at member
    have member : number ∈ lowering.subject.literalPiece value := by simpa using member
    exact (overlong_copyTo member outgrows sized copied).of_subset (List.subset_append_right _ _)
  case h_5 kind =>
    rw [kind] at code
    split at member
    case isFalse => cases member
    case isTrue result => exact overlong_ret result member outgrows (made code)
  case h_6 => cases member

/-! ### Functions -/

/-- The place of a parameter, or of its address, is too far away. -/
theorem overlong_saveParameter {plan : ArgumentPlan}
    (member : number ∈ lowering.subject.untestedFor value plan) (outgrows : Outgrows number)
    (code : lowering.saveParameter value plan = .ok lines) : Overlong lines := by
  have word := outgrows.2
  obtain ⟨start, _, code⟩ := ok_of_bind code
  obtain ⟨size, sized, code⟩ := ok_of_bind code
  rw [Module.untestedFor, Ty.bytes_eq (ok_of_mapError sized)] at member
  split at member
  case h_1 offset copy place =>
    obtain rfl := List.mem_singleton.mp member
    rw [copy, place] at code
    cases code
    have wide : fits32 (incomingDisplacement offset) = false := by
      refine outgrows.fits32_eq ?_
      rw [incomingDisplacement, Frame.incomingArguments, signed64_of_small _ (by omega) (by omega)]
      omega
    refine overlong_cons ?_
    rw [copyAddress, Line.isEncodable, Operand.isEncodable, wide, Bool.false_and]
  case h_2 offset copy place =>
    rw [copy, place] at code
    cases code
    dsimp only at member
    split at member
    case isTrue => cases member
    case isFalse some' =>
      obtain rfl := List.mem_singleton.mp member
      refine overlong_copyMemory (Nat.pos_of_ne_zero some') (outgrows.fits32_eq ?_)
      rw [incomingDisplacement, Frame.incomingArguments, signed64_of_small _ (by omega) (by omega)]
      omega
  case h_3 => cases member

/-- **A number of a function that is not small is found in its code.** -/
theorem Grounded.overlong_lines (grounded : lowering.Grounded)
    (member : number ∈ lowering.untested) (outgrows : Outgrows number)
    (code : lowering.lines next = .ok (lines, after)) : Overlong lines := by
  rw [grounded.untested_eq, List.mem_cons, List.mem_append] at member
  obtain ⟨parameters, saved, entry⟩ := exists_entry_of_lines code
  rcases member with rfl | incoming | inside
  · have prologue : Overlong lowering.prologue :=
      (outgrows.adjustStack .sub).of_subset fun _ inside => by simp [Lowering.prologue, inside]
    exact prologue.of_subset fun _ inside => entry.subset (by simp [inside])
  · obtain ⟨⟨parameter, plan⟩, listed, incoming⟩ := List.mem_flatMap.mp incoming
    obtain ⟨parts, codes, saved⟩ := ok_of_bind saved
    cases saved
    obtain ⟨part, inside, made⟩ := ok_of_mem_mapM codes _ listed
    refine (overlong_saveParameter incoming outgrows made).of_subset fun line within => ?_
    exact entry.subset (List.mem_cons_of_mem _ (List.mem_append_right _
      (List.mem_flatten.mpr ⟨part, inside, within⟩)))
  · obtain ⟨block, inside, within⟩ := List.mem_flatMap.mp inside
    obtain ⟨id, listed, within⟩ := List.mem_flatMap.mp within
    obtain ⟨start, part, after, made, place⟩ := exists_instruction_of_lines code inside listed
    exact (overlong_instruction within outgrows made).of_subset place.subset

end Lowering

namespace Module

open Asm

variable {m : Module} {options : Options} {program : List Line}

/-- **All lines of a program can be encoded if the numbers of its functions are small**, and if one
of them is not, there is a line that cannot. -/
theorem assemble_encodable (assembled : m.assemble options = .ok program) :
    ((∀ function ∈ m.functions, (m.blocksOf function).isEmpty = false →
        ∀ number ∈ m.untested options.platform.convention function, number < 0x80000000) →
      ∀ line ∈ program, line.isEncodable = true) ∧
    ∀ function ∈ m.functions, (m.blocksOf function).isEmpty = false →
      ∀ number ∈ m.untested options.platform.convention function,
        0x80000000 ≤ number → number < 0x8000000000000000 →
          ∃ line ∈ program, line.isEncodable = false := by
  constructor
  · intro small line member
    rcases emitted_of_assemble assembled line member with direct |
      ⟨lowering, emitted, grounded, rfl, rfl, listed, defined⟩
    · exact Line.isEncodable_of_isDirect direct
    · exact emitted.isEncodable grounded (small _ listed defined)
  · intro function listed defined number member large word
    obtain ⟨symbols, start, lowering, after, code, last, before, behind, _, made, lines, rfl⟩ :=
      Lowering.exists_of_assemble assembled listed defined
    have grounded := Lowering.grounded_of_made made
    obtain ⟨printer, same, _, name, _⟩ := Lowering.eq_of_made made
    have member : number ∈ lowering.untested := by
      rwa [Lowering.untested, Lowering.subject, Lowering.convention, printer, same, name]
    have overlong := grounded.overlong_lines member ⟨large, word⟩ lines
    exact overlong.of_subset fun _ inside => by simp [inside]

/-- A function with storage that reaches down to the last displacement but one that fits. -/
def vastSteps : List Operation :=
  [.addFunction ⟨[], .void, false⟩ "vast", .addBlock ⟨0⟩ .finish "entry",
    .insert ⟨some (.finish ⟨1⟩)⟩ (.alloc (.array 2147483639 (.int 8))) "",
    .insert ⟨some (.finish ⟨1⟩)⟩ (.ret none) ""]

def vast : Module := builtBy "vast" vastSteps

theorem validate_vast : vast.validate = .ok () := by
  have functions : vast.functions = [⟨0⟩] := by decide +kernel
  have flow : (Cfg.of vast ⟨0⟩).nodes = [(⟨1⟩, [])] := by decide +kernel
  have dominators : DominatorTree.of (Cfg.mk ⟨0⟩ [(⟨1⟩, [])]).graph = ⟨[⟨1⟩], [none]⟩ :=
    DominatorTree.of_eq (by decide +kernel) (by decide +kernel) (by decide +kernel)
  exact validate_of_checks functions (by decide +kernel) (context_eq flow dominators)
    (by decide +kernel) (by decide +kernel)

/-- The frame of this function is rounded up to a number that does not fit. -/
theorem exists_program_vast : ∃ program, vast.assemble Options.default = .ok program ∧
    vast.compile Options.default = .ok program ∧
    .arithmetic .sub .quad (.immediate 2147483648) (.full .rsp) ∈ program := by
  have made : ((vast.assemble Options.default).toOption.any fun program =>
      program.contains (.arithmetic .sub .quad (.immediate 2147483648) (.full .rsp))) = true := by
    decide +kernel
  obtain ⟨program, assembled, compiled, held⟩ := Lowering.exists_program validate_vast made
  exact ⟨program, assembled, compiled, List.contains_iff_mem.mp held⟩

/-- All numbers of one function are small, and that of another is not. -/
theorem assemble_encodable_gcd : (∃ program, gcd.assemble Options.default = .ok program ∧
      ∀ line ∈ program, line.isEncodable = true) ∧
    ∃ program, vast.assemble Options.default = .ok program ∧
      ∃ line ∈ program, line.isEncodable = false := by
  constructor
  · have made : ((gcd.assemble Options.default).toOption.any fun _ => true) = true := by
      decide +kernel
    obtain ⟨program, assembled, _⟩ := Lowering.exists_program validate_gcd made
    refine ⟨program, assembled, (assemble_encodable assembled).1 ?_⟩
    decide +kernel
  · obtain ⟨program, assembled, _⟩ := exists_program_vast
    have member : 2147483648 ∈ vast.untested .systemV ⟨0⟩ := by decide +kernel
    exact ⟨program, assembled, (assemble_encodable assembled).2 ⟨0⟩ (by decide +kernel)
      (by decide +kernel) 2147483648 member (by decide) (by decide)⟩

/-- **An accepted module with a constant that does not fit.** -/
theorem frame_unencodable : Built vast ∧ ∃ program, vast.compile Options.default = .ok program ∧
    ∃ line ∈ program, line.isEncodable = false := by
  obtain ⟨program, _, compiled, held⟩ := exists_program_vast
  exact ⟨built_builtBy "vast" vastSteps, program, compiled, _, held, rfl⟩

end Module

end SsaAmd64
