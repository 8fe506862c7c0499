/-
**What a function gives back.**

A function enters its code by the prologue and leaves it by an epilogue. The stack pointer is back
where it was then. So are the registers that the prologue has saved, as long as nothing has written
over them: an access behind the end of a variable does, since nothing checks bounds, and a frame that
all but fills the address space leaves no room for them.

* `Lowering.saved_prologue`: what a prologue leaves behind;
* `Lowering.upright_of_execution`: the stack pointer on every execution of a function;
* `Lowering.restored_of_execution`: the registers at a return;
* `Module.compile_stack`: the stack discipline of every function of a program;
* `Module.loses_smash_brim`: functions that lose a register.
-/

import SsaAmd64.Proofs.Lowering.Discipline
import SsaAmd64.Proofs.Lowering.Labels
import SsaAmd64.Proofs.Validation.DefinedReads

namespace SsaAmd64

namespace Lowering

open Asm

variable {lowering : Lowering} {rules : Nat → StoreRule} {names : List String}
variable {program behind body : List Line} {entry : Machine} {running : Running}

/-! ### The prologue -/

/-- What a prologue does after it has saved registers. -/
def setup (lowering : Lowering) : List Line :=
  .mov .quad (.full .rsp) (.full .rbp) :: adjustStack .sub lowering.frame.size ++
    (if lowering.plan.result = some .memory then
      [.mov .quad (.full lowering.convention.hiddenRegister) (.full resultPointer)]
    else [])

theorem prologue_eq (lowering : Lowering) :
    lowering.prologue = savedRegisters.map .push ++ lowering.setup := by
  simp only [prologue, setup, List.append_assoc, List.cons_append, List.nil_append]

theorem mem_setup {line : Line} (member : line ∈ lowering.setup) :
    (∃ source target, line = .mov .quad (.full source) (.full target)) ∨
      ∃ size, line = moveStack .sub size := by
  simp only [setup, adjustStack, List.cons_append, List.mem_cons, List.mem_append] at member
  rcases member with rfl | reserves | hidden
  · exact .inl ⟨_, _, rfl⟩
  · split at reserves
    · cases reserves
    · exact .inr ⟨_, List.mem_singleton.mp reserves⟩
  · split at hidden
    · exact .inl ⟨_, _, List.mem_singleton.mp hidden⟩
    · cases hidden

/-- **What a prologue leaves behind**: the frame, and the registers that it has saved above. -/
theorem saved_prologue (lowering : Lowering) (entry : Machine) :
    ∃ entered, executeAll lowering.prologue entry = some entered ∧
      (Stage.inside 0).Holds lowering (offset (entry.registers .rsp) (-24)) entered ∧
      ∀ index register, savedRegisters.reverse[index]? = some register →
        entered.load (offset (offset (entry.registers .rsp) (-24)) (8 * index : Nat)) 8 =
          (entry.registers register).toNat := by
  obtain ⟨entered, _, ran, pointer, foot, _⟩ := wrote_prologue lowering entry
  refine ⟨entered, ran, ⟨pointer, by rw [foot, pointer, Nat.add_zero]⟩, ?_⟩
  obtain ⟨pushed, pushes, found⟩ := load_pushes savedRegisters entry (by decide) (by decide)
  rw [prologue_eq, executeAll_append, pushes] at ran
  have silent : ∀ line ∈ lowering.setup, ∀ machine, line.ranges machine = [] := by
    intro line member machine
    rcases mem_setup member with ⟨_, _, rfl⟩ | ⟨_, rfl⟩ <;> rfl
  intro index register listed
  have inside := (List.getElem?_eq_some_iff.mp listed).1
  rw [List.length_reverse] at inside
  rw [List.getElem?_reverse inside] at listed
  have few : savedRegisters.length = 3 := rfl
  have same : (-24 : Int) + (8 * index : Nat) =
      -(8 * (savedRegisters.length - 1 - index + 1) : Nat) := by omega
  rw [← found _ register listed, offset_offset, same]
  exact congrArg Bytes.toNat (bytes_of_executeAll ran silent)

/-- Nothing of note stands in a prologue. -/
theorem plain_prologue {line : Line} (member : line ∈ lowering.prologue) :
    (∀ condition target, line ≠ .set condition target) ∧ (∀ name, line ≠ .label name) ∧
      (∀ symbol, line ≠ .call symbol) ∧ line ≠ .ret := by
  rw [prologue_eq] at member
  rcases List.mem_append.mp member with pushes | sets
  · obtain ⟨register, _, rfl⟩ := List.mem_map.mp pushes
    exact ⟨nofun, nofun, nofun, nofun⟩
  · rcases mem_setup sets with ⟨_, _, rfl⟩ | ⟨_, rfl⟩ <;> exact ⟨nofun, nofun, nofun, nofun⟩

/-- So there is nothing to say about the stack there. -/
theorem upright_prologue {line : Line} {later : List Line}
    (lands : lowering.Lands rules program body behind names) (member : line ∈ lowering.prologue)
    (first : running.1 = line :: (later ++ (body ++ behind))) :
    lowering.Upright program names entry running := by
  obtain ⟨_, noLabel, noCall, noRet⟩ := plain_prologue member
  rw [← Prod.mk.eta (p := running), first]
  refine ⟨fun at' => ?_, fun symbol _ whole => absurd (List.cons.inj whole).1 (noCall symbol),
    fun _ whole => absurd (List.cons.inj whole).1 noRet⟩
  rcases at' with ⟨name, rest, whole⟩ | ⟨name, listed, place⟩
  · exact absurd (List.cons.inj whole).1 (noLabel name)
  · -- what stands behind a label is shorter than the code behind the prologue
    obtain ⟨lines, within, place', _⟩ := lands name listed
    have same := congrArg List.length (Option.some.inj (place'.symm.trans place))
    have shorter := within.length_le
    simp only [List.length_append, List.length_cons] at same shorter
    omega

/-- **The stack pointer is as it should be on every execution of a function.** -/
theorem upright_of_execution (lands : lowering.Lands rules program body behind names)
    (orderly : lowering.Orderly rules names (.inside 0) body)
    (suffix : body ++ behind <:+ program) (aligned : (entry.registers .rsp).toNat % 16 = 8)
    (path : Execution program (lowering.prologue ++ (body ++ behind), entry) running) :
    lowering.Upright program names entry running := by
  obtain ⟨entered, ran, holds, _⟩ := saved_prologue lowering entry
  rcases Execution.through (fun _ _ move => move) (fun _ member => (plain_prologue member).1) ran
    path with ⟨front, line, later, whole, first⟩ | path
  · exact upright_prologue lands (whole ▸ List.mem_append_right _ List.mem_cons_self) first
  · have stands : lowering.Stands rules names behind (offset (entry.registers .rsp) (-24))
        (body ++ behind, entered) := ⟨_, body, rfl, orderly, holds⟩
    exact (stands.path lands path).upright aligned (stands.holds_of_atLabel lands suffix holds path)

/-- **The saved registers have their values of old at a return** on every execution that spares
them. -/
theorem restored_of_execution (lands : lowering.Lands lowering.shelter program body behind names)
    (orderly : lowering.Orderly lowering.shelter names (.inside 0) body)
    (suffix : body ++ behind <:+ program) (aligned : (entry.registers .rsp).toNat % 16 = 8)
    (path : SparingExecution program (offset (entry.registers .rsp) (-24)) 24
      (lowering.prologue ++ (body ++ behind), entry) running)
    {rest : List Line} (first : running.1 = .ret :: rest) {register : Register}
    (reserved : register.isReserved = true) :
    running.2.registers register = entry.registers register := by
  have upright := upright_of_execution lands orderly suffix aligned path.execution
  obtain ⟨pointer, taken⟩ := upright.ret rest first
  obtain ⟨entered, ran, holds, saved⟩ := saved_prologue lowering entry
  -- what an epilogue loads is what the prologue has stored
  have spared : running.2.memory.bytes (offset (entry.registers .rsp) (-24)) 24 =
      entered.memory.bytes (offset (entry.registers .rsp) (-24)) 24 := by
    rcases Execution.through (fun _ _ => SparingMove.move)
      (fun _ member => (plain_prologue member).1) ran path with ⟨_, line, _, whole, head⟩ | path
    · have member : line ∈ lowering.prologue :=
        whole ▸ List.mem_append_right _ List.mem_cons_self
      obtain ⟨same, _⟩ := List.cons.inj (head.symm.trans first)
      exact absurd same (plain_prologue member).2.2.2
    · exact Stands.spared_of_execution lands ⟨_, body, rfl, orderly, holds⟩ path
  have kept : ∀ (index : Nat) register, savedRegisters.reverse[index]? = some register →
      running.2.registers register = entry.registers register := by
    intro index register listed
    obtain ⟨inside, _⟩ := List.getElem?_eq_some_iff.mp listed
    have few : savedRegisters.reverse.length = 3 := rfl
    have within : 8 * index + 8 ≤ 24 := by omega
    have same := congrArg Bytes.toNat (Memory.bytes_inside spared within)
    rw [← offset_eq_add] at same
    refine (taken index register listed).trans ?_
    rw [Machine.load, same]
    exact (congrArg (BitVec.ofNat 64) (saved index register listed)).trans (BitVec.ofNat_toNat _ _)
  cases register with
  | rsp => exact pointer
  | rbp => exact kept 2 .rbp rfl
  | rbx => exact kept 1 .rbx rfl
  | r15 => exact kept 0 .r15 rfl
  | _ => cases reserved

end Lowering

open Asm Lowering

variable {m : Module} {options : Options} {program : List Line} {function : ValueId}

/-- **The stack discipline of the code of a function.** Only epilogues write the registers that the
prologue saves. On every execution the stack pointer is below `%rbp` by the size of the frame at all
labels, those of blocks among them, whether control jumps there or passes them; it is a multiple of
sixteen at calls, and at a return it is where it was on entry. There the saved registers are taken
from where the prologue has put them; they have their values of old unless what called functions and
stores through other pointers do to memory gets in the way. -/
theorem Module.compile_stack (built : m.Built) (compiled : m.compile options = .ok program)
    (distinct : (labels program).Nodup) (member : function ∈ m.functions)
    (defined : (m.blocksOf function).isEmpty = false) :
    ∃ lowering next last body behind, Makes m options program function lowering ∧
      lowering.lines next = .ok (lowering.header ++ (lowering.prologue ++ body), last) ∧
      goto (lowering.symbols.symbol function) program =
        some (lowering.prologue ++ (body ++ behind)) ∧ lowering.Names (labels body) ∧
      Restrained body ∧
      ∀ entry : Machine, (entry.registers .rsp).toNat % 16 = 8 → ∀ running,
        (Execution program (lowering.prologue ++ (body ++ behind), entry) running →
          lowering.Upright program (labels body) entry running) ∧
        (lowering.Roomy → SparingExecution program (offset (entry.registers .rsp) (-24)) 24
            (lowering.prologue ++ (body ++ behind), entry) running →
          ∀ rest, running.1 = .ret :: rest → ∀ register, register.isReserved = true →
            running.2.registers register = entry.registers register) := by
  obtain ⟨lowering, makes⟩ := exists_makes compiled member defined
  have prepared := makes.prepared built compiled member
  obtain ⟨rfl, rfl, rfl⟩ := makes.eq
  obtain ⟨_, next, code, last, _, lines, before, behind, whole⟩ := makes.stands
  have nonempty : lowering.subject.blocksOf lowering.function ≠ [] := by
    rwa [← List.isEmpty_eq_false_iff]
  obtain ⟨body, rfl, orderly⟩ := exists_orderly (fair_of_all lowering) prepared nonempty lines
  have place : program = (before ++ lowering.header ++ lowering.prologue) ++ (body ++ behind) := by
    rw [← whole]
    simp only [List.append_assoc]
  have suffix : body ++ behind <:+ program := ⟨_, place.symm⟩
  refine ⟨lowering, next, last, body, behind, makes, lines, ?_, names_of_lines lines,
    orderly.restrained,
    fun entry aligned running => ⟨fun path => ?_, fun roomy path rest first register reserved => ?_⟩⟩
  · obtain ⟨directives, header⟩ : ∃ directives, lowering.header =
        directives ++ [.label (lowering.symbols.symbol lowering.function)] := ⟨_, rfl⟩
    have entrance : program = (before ++ directives) ++
        .label (lowering.symbols.symbol lowering.function) ::
          (lowering.prologue ++ (body ++ behind)) := by
      rw [place, header]
      simp only [List.append_assoc, List.cons_append, List.nil_append]
    exact goto_of_nodup distinct entrance
  · have lands := Orderly.lands orderly (place ▸ distinct)
    rw [← place] at lands
    exact upright_of_execution lands orderly suffix aligned path
  · -- the same code is orderly under the rules that keep stores away from the saved registers
    obtain ⟨body', same, orderly'⟩ :=
      exists_orderly (fair_shelter prepared roomy) prepared nonempty lines
    obtain rfl := List.append_cancel_left (List.append_cancel_left same)
    have lands := Orderly.lands orderly' (place ▸ distinct)
    rw [← place] at lands
    exact restored_of_execution lands orderly' suffix aligned path first reserved

/-! ### Registers that are kept and registers that are lost -/

namespace Module

/-- A machine that has just been called. -/
def arriving : Machine where
  registers register := if register = .rsp then 0xff8 else 1
  memory _ := 0
  flags := none
  symbols _ := 0

/-- The program of an accepted module, and the code of a function in it. -/
theorem exists_code {m : Module} {options : Options} {name : String} {code : List Line}
    (valid : m.validate = .ok ())
    (made : ((m.assemble options).toOption.any fun program =>
      goto name program = some code ∧ (labels program).Nodup) = true) :
    ∃ program, m.compile options = .ok program ∧ goto name program = some code ∧
      (labels program).Nodup := by
  obtain ⟨program, _, compiled, passed⟩ := exists_program valid made
  exact ⟨program, compiled, of_decide_eq_true passed⟩

/-- A function that calls itself and jumps. On Windows a call takes 32 bytes of the stack. -/
def againSteps : List Operation :=
  [.addFunction ⟨[.int 64], .void, false⟩ "again", .addBlock ⟨0⟩ .finish "entry",
    .addBlock ⟨0⟩ .finish "done", .insert ⟨some (.finish ⟨2⟩)⟩ (.call ⟨0⟩ [⟨1⟩]) "",
    .insert ⟨some (.finish ⟨2⟩)⟩ (.br ⟨3⟩) "", .insert ⟨some (.finish ⟨3⟩)⟩ (.ret none) ""]

def again : Module := builtBy "again" againSteps

theorem validate_again : again.validate = .ok () := by
  have functions : again.functions = [⟨0⟩] := by decide +kernel
  have flow : (Cfg.of again ⟨0⟩).nodes = [(⟨2⟩, [⟨3⟩]), (⟨3⟩, [])] := by decide +kernel
  have dominators : DominatorTree.of (Cfg.mk ⟨0⟩ [(⟨2⟩, [⟨3⟩]), (⟨3⟩, [])]).graph =
      ⟨[⟨2⟩, ⟨3⟩], [none, some 0]⟩ :=
    DominatorTree.of_eq (by decide +kernel) (by decide +kernel) (by decide +kernel)
  exact validate_of_checks functions (by decide +kernel) (context_eq flow dominators)
    (by decide +kernel) (by decide +kernel)

section Again

variable {lowering : Lowering} (makes : Makes again ⟨.windows, false⟩ program ⟨0⟩ lowering)
include makes

theorem label_again : ∃ start, lowering.label ⟨3⟩ = Platform.windows.label (start + 1) := by
  have blocks : (Printer.of again).subject.blocksOf ⟨0⟩ = [⟨2⟩, ⟨3⟩] := by decide +kernel
  obtain ⟨start, _, _, _, made, _⟩ := makes.stands
  obtain ⟨_, _, made⟩ := ok_of_bind made
  obtain ⟨_, _, made⟩ := ok_of_bind made
  rw [blocks] at made
  obtain ⟨same, _⟩ := Prod.mk.inj (Except.ok.inj made)
  refine ⟨start, ?_⟩
  rw [label, ← congrArg Lowering.labels same]
  rfl

variable (prepared : lowering.Prepared)
include prepared

theorem frameSize_again : lowering.frame.size = 16 := by
  obtain ⟨subject, function, _⟩ := makes.eq
  have framed : Frame.of lowering.subject lowering.function = .ok lowering.frame := prepared.framed
  have size : (Frame.of again ⟨0⟩).toOption.map Frame.size = some 16 := by decide +kernel
  rw [subject, function] at framed
  rw [framed] at size
  exact Option.some.inj size

theorem roomy_again : lowering.Roomy := by
  obtain ⟨subject, function, options⟩ := makes.eq
  intro area reserves
  rw [frameSize_again makes prepared]
  cases reserves with
  | nothing => decide
  | @arguments id callee held plan inside kind called planned =>
    rw [subject, function] at inside
    rw [subject] at kind
    have only : ∀ id ∈ again.bodyOf ⟨0⟩, again.opcode? id = some .call → id = ⟨4⟩ := by
      decide +kernel
    obtain rfl := only id inside kind
    have area : (again.function? ⟨0⟩).map (fun held => (Convention.win64.plan
      (((again.operandsOf ⟨4⟩).tail.filterMap fun slot => slot).map again.typeOf)
        held.signature.result).toOption.map CallPlan.stackSize) = some (some 32) := by
      decide +kernel
    have first : again.operand? ⟨4⟩ 0 = some ⟨0⟩ := by decide +kernel
    rw [Lowering.callee, subject, first] at called
    dsimp only at called
    split at called
    case h_2 => cases called
    case h_1 found =>
      cases called
      rw [Lowering.trailingValues, Lowering.convention, subject, options] at planned
      have planned' : Convention.win64.plan
          (((again.operandsOf ⟨4⟩).tail.filterMap fun slot => slot).map again.typeOf)
          held.signature.result = .ok plan := planned
      rw [found, Option.map_some, planned'] at area
      rw [Option.some.inj (Option.some.inj area)]
      decide
  | phis inside listed leads hazardous sizes =>
    have target := prepared.mem_blocksOf_of_target (List.mem_flatMap.mpr ⟨_, inside, listed⟩) leads
    rw [subject, function] at inside target
    rw [subject] at hazardous
    have none : ∀ source ∈ again.blocksOf ⟨0⟩, ∀ target ∈ again.blocksOf ⟨0⟩,
        isHazardous (phiCopies again source target) = false := by decide +kernel
    rw [none _ inside _ target] at hazardous
    cases hazardous

end Again

/-- The code up to the call. -/
def againCall : List Line :=
  [.push .rbp, .push .rbx, .push .r15, .mov .quad (.full .rsp) (.full .rbp),
    .arithmetic .sub .quad (.immediate 16) (.full .rsp),
    .mov .quad (.full .rcx) (.memory .rbp (-8)), .label ".L0",
    .arithmetic .sub .quad (.immediate 32) (.full .rsp),
    .extend false .quad (.memory .rbp (-8)) .rcx]

/-- The code of the last block up to the return. -/
def againLeave : List Line :=
  [.mov .quad (.full .rbp) (.full .rsp), .pop .r15, .pop .rbx, .pop .rbp]

/-- The code from the jump on. -/
def againJump : List Line :=
  .jump ".L1" :: .label ".L1" :: (againLeave ++ [.ret])

/-- The code from the call on. -/
def againRest : List Line :=
  .call "again" :: .arithmetic .add .quad (.immediate 32) (.full .rsp) :: againJump

/-- The code runs up to the return, by way of the call and the jump. -/
theorem exists_path_again {program : List Line}
    (target : goto ".L1" program = some (againLeave ++ [.ret])) : ∃ placed landed finish,
    SparingExecution program (offset (arriving.registers .rsp) (-24)) 24
      (againCall ++ againRest, arriving) (againRest, placed) ∧
    Move program (againJump, landed) (againLeave ++ [.ret], landed) ∧
    SparingExecution program (offset (arriving.registers .rsp) (-24)) 24
      (againCall ++ againRest, arriving) (againLeave ++ [.ret], landed) ∧
    SparingExecution program (offset (arriving.registers .rsp) (-24)) 24
      (againCall ++ againRest, arriving) ([.ret], finish) := by
  have runs : ((executeAll againCall arriving).bind fun placed =>
      (executeAll [.arithmetic .add .quad (.immediate 32) (.full .rsp)] placed).bind
        (executeAll againLeave)).isSome = true := by
    decide +kernel
  obtain ⟨finish, both⟩ := Option.isSome_iff_exists.mp runs
  obtain ⟨placed, ran, both⟩ := Option.bind_eq_some_iff.mp both
  obtain ⟨landed, ran', ran''⟩ := Option.bind_eq_some_iff.mp both
  have arrives : SparingExecution program (offset (arriving.registers .rsp) (-24)) 24
      (againCall ++ againRest, arriving) (againRest, placed) := .of_executeAll (by decide) ran
  have goes : SparingExecution program (offset (arriving.registers .rsp) (-24)) 24
      ([.arithmetic .add .quad (.immediate 32) (.full .rsp)] ++ againJump, placed)
      (againJump, landed) := .of_executeAll (by decide) ran'
  have leaves : SparingExecution program (offset (arriving.registers .rsp) (-24)) 24
      (againLeave ++ [.ret], landed) ([.ret], finish) := .of_executeAll (by decide) ran''
  have call : SparingMove program (offset (arriving.registers .rsp) (-24)) 24 (againRest, placed)
      ([.arithmetic .add .quad (.immediate 32) (.full .rsp)] ++ againJump, placed) :=
    ⟨.call fun _ _ => rfl, fun _ _ _ => rfl⟩
  have jump : SparingMove program (offset (arriving.registers .rsp) (-24)) 24 (againJump, landed)
      (againLeave ++ [.ret], landed) := ⟨.jump target, fun _ _ _ => rfl⟩
  have lands : SparingExecution program (offset (arriving.registers .rsp) (-24)) 24
      (againCall ++ againRest, arriving) (againLeave ++ [.ret], landed) :=
    (arrives.trans (goes.head call)).tail jump
  exact ⟨placed, landed, finish, arrives, jump.move, lands, lands.trans leaves⟩

/-- A call that does nothing is made at a multiple of sixteen, the area for it is gone behind the
label that is jumped to, and the function returns with the reserved registers as they were. -/
theorem compile_stack_again : ∃ program placed landed finish,
    again.compile ⟨.windows, false⟩ = .ok program ∧
      goto "again" program = some (againCall ++ againRest) ∧
      Execution program (againCall ++ againRest, arriving) (againRest, placed) ∧
      16 ∣ (placed.registers .rsp).toNat ∧
      Move program (againJump, landed) (againLeave ++ [.ret], landed) ∧
      Execution program (againCall ++ againRest, arriving) (againLeave ++ [.ret], landed) ∧
      landed.registers .rsp = offset (landed.registers .rbp) (-16) ∧
      SparingExecution program (offset (arriving.registers .rsp) (-24)) 24
        (againCall ++ againRest, arriving) ([.ret], finish) ∧
      ∀ register, register.isReserved = true →
        finish.registers register = arriving.registers register := by
  have code : ∃ program, again.compile ⟨.windows, false⟩ = .ok program ∧
      goto "again" program = some (againCall ++ againRest) ∧ (labels program).Nodup :=
    exists_code validate_again (by decide +kernel)
  have code' : ∃ program, again.compile ⟨.windows, false⟩ = .ok program ∧
      goto ".L1" program = some (againLeave ++ [.ret]) ∧ (labels program).Nodup :=
    exists_code validate_again (by decide +kernel)
  obtain ⟨program, compiled, place, distinct⟩ := code
  obtain ⟨_, compiled', target, _⟩ := code'
  obtain rfl := Except.ok.inj (compiled.symm.trans compiled')
  have built : again.Built := built_builtBy "again" againSteps
  have member : (⟨0⟩ : ValueId) ∈ again.functions := by decide +kernel
  obtain ⟨lowering, next, last, body, behind, makes, lines, found, names, restrained, stack⟩ :=
    compile_stack built compiled distinct member
      (show (again.blocksOf ⟨0⟩).isEmpty = false by decide +kernel)
  have prepared := makes.prepared built compiled member
  have named : (Symbols.of (Printer.of again) .windows).toOption.map (fun symbols =>
      symbols.symbol ⟨0⟩) = some "again" := by decide +kernel
  rw [makes.named] at named
  rw [show lowering.symbols.symbol ⟨0⟩ = "again" from Option.some.inj named, place] at found
  have whole := Option.some.inj found
  rw [← whole] at stack
  have listed : ".L1" ∈ labels body := by
    obtain ⟨subject, function, _⟩ := makes.eq
    have own := names ⟨3⟩ (by rw [subject, function]; decide +kernel)
    obtain ⟨start, number⟩ := label_again makes
    have among : lowering.label ⟨3⟩ ∈ labels (againCall ++ againRest) := by
      rw [whole, labels_append, labels_append]
      exact List.mem_append_right _ (List.mem_append_left _ own)
    rcases List.mem_pair.mp among with first | second
    · have zero : Platform.windows.label (start + 1) = Platform.windows.label 0 :=
        number.symm.trans first
      cases Platform.label_injective _ zero
    · exact second ▸ own
  obtain ⟨placed, landed, finish, arrives, jump, lands, path⟩ := exists_path_again target
  have aligned : (arriving.registers .rsp).toNat % 16 = 8 := by decide
  obtain ⟨_, pointer⟩ :=
    ((stack arriving aligned _).1 lands.execution).label (.inr ⟨_, listed, target⟩)
  rw [frameSize_again makes prepared] at pointer
  exact ⟨program, placed, landed, finish, compiled, place, arrives.execution,
    ((stack arriving aligned _).1 arrives.execution).call _ _ rfl, jump, lands.execution,
    pointer, path, (stack arriving aligned _).2 (roomy_again makes prepared) path [] rfl⟩

/-- **A function may return without the old value of a register.** -/
def Loses (m : Module) (options : Options) (name : String) (register : Register) : Prop :=
  ∃ program code rest, ∃ entry last : Machine, m.compile options = .ok program ∧
    (labels program).Nodup ∧ goto name program = some code ∧
    (entry.registers .rsp).toNat % 16 = 8 ∧
    Execution program (code, entry) (.ret :: rest, last) ∧
    last.registers register ≠ entry.registers register

/-- A function stands for an execution up to a return. -/
theorem loses_of_code {m : Module} {options : Options} {name : String} {register : Register}
    {lines rest : List Line} (code : ∃ program, m.compile options = .ok program ∧
      goto name program = some (lines ++ .ret :: rest) ∧ (labels program).Nodup)
    (lost : ((executeAll lines arriving).any fun last =>
      last.registers register ≠ arriving.registers register) = true) :
    m.Loses options name register := by
  obtain ⟨program, compiled, place, distinct⟩ := code
  cases ran : executeAll lines arriving with
  | none =>
    rw [ran] at lost
    cases lost
  | some last =>
    rw [ran] at lost
    exact ⟨program, _, rest, arriving, last, compiled, distinct, place, by decide,
      .of_steps (.of_executeAll ran), of_decide_eq_true lost⟩

/-- A function that stores behind its only variable, where its caller's `%rbp` is saved. -/
def smashSteps : List Operation :=
  [.addFunction ⟨[], .void, false⟩ "smash", .addBlock ⟨0⟩ .finish "entry",
    .addLiteral (.ofNat 64 4), .addLiteral (.ofNat 64 7),
    .insert ⟨some (.finish ⟨1⟩)⟩ (.alloc (.int 64)) "x",
    .insert ⟨some (.finish ⟨1⟩)⟩ (.gep ⟨4⟩ [⟨2⟩]) "y",
    .insert ⟨some (.finish ⟨1⟩)⟩ (.store ⟨5⟩ ⟨3⟩) "",
    .insert ⟨some (.finish ⟨1⟩)⟩ (.ret none) ""]

def smash : Module := builtBy "smash" smashSteps

theorem validate_smash : smash.validate = .ok () := by
  have functions : smash.functions = [⟨0⟩] := by decide +kernel
  have flow : (Cfg.of smash ⟨0⟩).nodes = [(⟨1⟩, [])] := by decide +kernel
  have dominators : DominatorTree.of (Cfg.mk ⟨0⟩ [(⟨1⟩, [])]).graph = ⟨[⟨1⟩], [none]⟩ :=
    DominatorTree.of_eq (by decide +kernel) (by decide +kernel) (by decide +kernel)
  exact validate_of_checks functions (by decide +kernel) (context_eq flow dominators)
    (by decide +kernel) (by decide +kernel)

def smashCode : List Line :=
  [.push .rbp, .push .rbx, .push .r15, .mov .quad (.full .rsp) (.full .rbp),
    .arithmetic .sub .quad (.immediate 32) (.full .rsp), .label ".L0",
    .lea (.memory .rbp (-16)) .rax, .mov .quad (.full .rax) (.memory .rbp (-8)),
    .extend false .quad (.memory .rbp (-8)) .rax,
    .arithmetic .add .quad (.immediate 32) (.full .rax),
    .mov .quad (.full .rax) (.memory .rbp (-24)),
    .extend false .quad (.memory .rbp (-24)) .r11, .mov .quad (.immediate 7) (.memory .r11 0),
    .mov .quad (.full .rbp) (.full .rsp), .pop .r15, .pop .rbx, .pop .rbp]

/-- A function whose only variable all but fills the address space, so that its next value is put
where its caller's `%rbp` is saved. -/
def brimSteps : List Operation :=
  [.addFunction ⟨[], .void, false⟩ "brim", .addBlock ⟨0⟩ .finish "entry",
    .addLiteral (.ofNat 64 3), .addLiteral (.ofNat 64 4),
    .insert ⟨some (.finish ⟨1⟩)⟩
      (.alloc (.array 87081354 (.array 14374259 (.array 14737 (.int 8))))) "x",
    .insert ⟨some (.finish ⟨1⟩)⟩ (.binary .add ⟨2⟩ ⟨3⟩) "y",
    .insert ⟨some (.finish ⟨1⟩)⟩ (.ret none) ""]

def brim : Module := builtBy "brim" brimSteps

theorem validate_brim : brim.validate = .ok () := by
  have functions : brim.functions = [⟨0⟩] := by decide +kernel
  have flow : (Cfg.of brim ⟨0⟩).nodes = [(⟨1⟩, [])] := by decide +kernel
  have dominators : DominatorTree.of (Cfg.mk ⟨0⟩ [(⟨1⟩, [])]).graph = ⟨[⟨1⟩], [none]⟩ :=
    DominatorTree.of_eq (by decide +kernel) (by decide +kernel) (by decide +kernel)
  exact validate_of_checks functions (by decide +kernel) (context_eq flow dominators)
    (by decide +kernel) (by decide +kernel)

def brimCode : List Line :=
  [.push .rbp, .push .rbx, .push .r15, .mov .quad (.full .rsp) (.full .rbp),
    .arithmetic .sub .quad (.immediate (-16)) (.full .rsp), .label ".L0",
    .lea (.memory .rbp 26) .rax, .mov .quad (.full .rax) (.memory .rbp (-8)),
    .mov .quad (.immediate 3) (.full .rax), .mov .quad (.immediate 4) (.full .rcx),
    .arithmetic .add .quad (.full .rcx) (.full .rax), .mov .quad (.full .rax) (.memory .rbp 16),
    .mov .quad (.full .rbp) (.full .rsp), .pop .r15, .pop .rbx, .pop .rbp]

/-- **Accepted modules whose functions lose `%rbp`**: by way of a pointer, and by way of a frame that
leaves no room for what is saved above it. -/
theorem loses_smash_brim : Built smash ∧ smash.Loses ⟨.linux, false⟩ "smash" .rbp ∧
    Built brim ∧ brim.Loses ⟨.linux, false⟩ "brim" .rbp := by
  have smashes : ∃ program, smash.compile ⟨.linux, false⟩ = .ok program ∧
      goto "smash" program = some (smashCode ++ .ret :: footer .linux) ∧
      (labels program).Nodup := exists_code validate_smash (by decide +kernel)
  have fills : ∃ program, brim.compile ⟨.linux, false⟩ = .ok program ∧
      goto "brim" program = some (brimCode ++ .ret :: footer .linux) ∧
      (labels program).Nodup := exists_code validate_brim (by decide +kernel)
  exact ⟨built_builtBy "smash" smashSteps, loses_of_code smashes (by decide +kernel),
    built_builtBy "brim" brimSteps, loses_of_code fills (by decide +kernel)⟩

end Module

end SsaAmd64
