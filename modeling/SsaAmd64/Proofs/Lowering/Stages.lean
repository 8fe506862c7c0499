/-
**Code that keeps the stack in order.**

Between the prologue and an epilogue the stack pointer is below `%rbp` by the size of the frame and,
around a call or an assignment of phis, by that of an area. So each line of a function stands at a
stage, and the stage of a line decides the stage of the next. Control meets every label without an
area, whichever way it comes.

* `Lowering.Stage`, `Lowering.Orderly`: stages, and code in which each line stands at its stage;
* `Lowering.Takes`: code that leads from one stage to another;
* `Lowering.takes_instructions`, `Lowering.takes_blocks`: the code of blocks does;
* `Lowering.exists_orderly`: the code of a function is orderly behind its prologue;
* `Lowering.Orderly.of_label`: so is what stands behind each of its labels;
* `Lowering.Orderly.restrained`: saved registers are written by epilogues only.
-/

import SsaAmd64.Proofs.Lowering.Moves
import SsaAmd64.Proofs.Lowering.Prepared
import SsaAmd64.Proofs.Validation.Targets

namespace SsaAmd64

namespace Module

variable {m : Module} {function block : ValueId}

/-- The last instruction of a block of an accepted module is a terminator. -/
theorem isTerminated_of_validate (valid : m.validate = .ok ()) (member : function ∈ m.functions)
    (inside : block ∈ m.blocksOf function) : m.isTerminated block = true := by
  obtain ⟨_, _, rest⟩ := ok_of_bind valid
  obtain ⟨_, _, rest⟩ := ok_of_bind rest
  obtain ⟨_, ended, _⟩ := ok_of_bind rest
  have none := eq_nil_of_reportFirst ended
  have listed : block ∈ m.allBlocks := List.mem_flatMap.mpr ⟨function, member, inside⟩
  simpa using List.filter_eq_nil_iff.mp none block listed

end Module

namespace Lowering

open Asm

/-- **Where a line of a function stands**, as far as the stack is concerned. -/
inductive Stage where
  /-- Behind the prologue, with an area of some bytes below the frame. -/
  | inside (area : Nat)
  /-- In an epilogue, with some of the saved registers restored. -/
  | leaving (restored : Nat)
  /-- Behind a line that does not go on to the next. -/
  | past

/-- **Code in which each line stands at its stage**, and which jumps to some labels only. -/
inductive Orderly (lowering : Lowering) (rules : Nat → StoreRule) (names : List String) :
    Stage → List Line → Prop
  | finish : Orderly lowering rules names .past []
  | resume {lines : List Line} : Orderly lowering rules names (.inside 0) lines →
    Orderly lowering rules names .past lines
  | comment {lines : List Line} {area : Nat} (text : String) :
    Orderly lowering rules names (.inside area) lines →
    Orderly lowering rules names (.inside area) (.comment text :: lines)
  | plain {line : Line} {lines : List Line} {area : Nat} : lowering.IsPlain (rules area) line →
    Orderly lowering rules names (.inside area) lines →
    Orderly lowering rules names (.inside area) (line :: lines)
  | label {lines : List Line} (name : String) : Orderly lowering rules names (.inside 0) lines →
    Orderly lowering rules names (.inside 0) (.label name :: lines)
  | reserve {lines : List Line} {area : Nat} : lowering.Reserves area →
    Orderly lowering rules names (.inside area) lines →
    Orderly lowering rules names (.inside 0) (moveStack .sub area :: lines)
  | release {lines : List Line} {area : Nat} : Orderly lowering rules names (.inside 0) lines →
    Orderly lowering rules names (.inside area) (moveStack .add area :: lines)
  | call {lines : List Line} {area : Nat} (symbol : String) : lowering.Reserves area →
    Orderly lowering rules names (.inside area) lines →
    Orderly lowering rules names (.inside area) (.call symbol :: lines)
  | jump {lines : List Line} {target : String} : target ∈ names →
    Orderly lowering rules names .past lines →
    Orderly lowering rules names (.inside 0) (.jump target :: lines)
  | jumpIf {lines : List Line} {condition : Condition} {target : String} : target ∈ names →
    Orderly lowering rules names (.inside 0) lines →
    Orderly lowering rules names (.inside 0) (.jumpIf condition target :: lines)
  | trap {lines : List Line} : Orderly lowering rules names .past lines →
    Orderly lowering rules names (.inside 0) (.trap :: lines)
  | leave {lines : List Line} : Orderly lowering rules names (.leaving 0) lines →
    Orderly lowering rules names (.inside 0) (.mov .quad (.full .rbp) (.full .rsp) :: lines)
  | restore {lines : List Line} {restored : Nat} {register : Register} :
    savedRegisters.reverse[restored]? = some register →
    Orderly lowering rules names (.leaving (restored + 1)) lines →
    Orderly lowering rules names (.leaving restored) (.pop register :: lines)
  | ret {lines : List Line} : Orderly lowering rules names .past lines →
    Orderly lowering rules names (.leaving savedRegisters.length) (.ret :: lines)

/-- **Code that leads from one stage to another.** -/
def Takes (lowering : Lowering) (rules : Nat → StoreRule) (names : List String)
    (stage stage' : Stage) (lines : List Line) : Prop :=
  ∀ rest, lowering.Orderly rules names stage' rest →
    lowering.Orderly rules names stage (lines ++ rest)

/-- The stage behind an instruction. -/
def Stage.behind (ends : Bool) : Stage :=
  if ends then .past else .inside 0

variable {lowering : Lowering} {rules : Nat → StoreRule} {names : List String}
variable {stage stage' stage'' : Stage} {first second lines body : List Line} {name : String}
variable {id block target : ValueId} {next last after area : Nat} {ends : Bool}

/-! ### Pieces of code -/

namespace Takes

theorem nil : lowering.Takes rules names stage stage [] :=
  fun _ orderly => orderly

theorem append (one : lowering.Takes rules names stage stage' first)
    (other : lowering.Takes rules names stage' stage'' second) :
    lowering.Takes rules names stage stage'' (first ++ second) := by
  intro rest orderly
  rw [List.append_assoc]
  exact one _ (other rest orderly)

/-- Code that follows a line which does not go on to it starts without an area. -/
theorem resume (takes : lowering.Takes rules names stage .past lines) :
    lowering.Takes rules names stage (.inside 0) lines :=
  fun rest orderly => takes rest (.resume orderly)

theorem plain (plain : lowering.Plain (rules area) lines) :
    lowering.Takes rules names (.inside area) (.inside area) lines := by
  intro rest orderly
  induction lines with
  | nil => exact orderly
  | cons line lines ih =>
    obtain ⟨here, later⟩ := List.forall_mem_cons.mp plain
    exact .plain here (ih later)

theorem comment (comments : Bool) (text : String) :
    lowering.Takes rules names (.inside 0) (.inside 0) (Lowering.comment comments text) := by
  intro rest orderly
  cases comments with
  | false => exact orderly
  | true => exact .comment text orderly

/-- An area of no bytes is neither reserved nor released. -/
theorem adjustStack (reserves : lowering.Reserves area) :
    lowering.Takes rules names (.inside 0) (.inside area) (Lowering.adjustStack .sub area) ∧
      lowering.Takes rules names (.inside area) (.inside 0) (Lowering.adjustStack .add area) := by
  rw [Lowering.adjustStack, Lowering.adjustStack]
  by_cases none : area = 0
  · subst none
    exact ⟨nil, nil⟩
  · rw [if_neg none, if_neg none]
    exact ⟨fun _ => .reserve reserves, fun _ => .release⟩

theorem epilogue : lowering.Takes rules names (.inside 0) .past epilogue :=
  fun _ orderly => .leave (.restore rfl (.restore rfl (.restore rfl (.ret orderly))))

end Takes

/-! ### Instructions -/

/-- The labels of all blocks are among some names. -/
def Names (lowering : Lowering) (names : List String) : Prop :=
  ∀ block ∈ lowering.subject.blocksOf lowering.function, lowering.label block ∈ names

theorem Assigning.takes (assigning : lowering.Assigning rules lines) :
    lowering.Takes rules names (.inside 0) (.inside 0) lines := by
  cases assigning with
  | direct plain => exact .plain plain
  | staged reserves plain =>
    have inner : lowering.Takes rules names (.inside _) (.inside 0) (_ ++ [moveStack .add _]) :=
      (Takes.plain plain).append fun _ => .release
    exact fun rest orderly => .reserve reserves (inner rest orderly)

theorem Edge.takes (prepared : lowering.Prepared) (known : lowering.Names names)
    (inside : id ∈ lowering.subject.bodyOf lowering.function)
    (edge : lowering.Edge rules id lines) : lowering.Takes rules names (.inside 0) .past lines := by
  cases edge with
  | jump assigning leads =>
    have named := known _ (prepared.mem_blocksOf_of_target inside leads)
    exact assigning.takes.append fun _ orderly => .jump named orderly

/-- **The code of an instruction starts and ends without an area.** -/
theorem Shape.takes (prepared : lowering.Prepared) (known : lowering.Names names)
    (inside : id ∈ lowering.subject.bodyOf lowering.function)
    (shape : lowering.Shape rules id next ends lines after) (own : Asm.labels lines ⊆ names) :
    lowering.Takes rules names (.inside 0) (.behind ends) lines := by
  cases shape with
  | plain plain => exact .plain plain
  | call callee reserves placed stored =>
    obtain ⟨reserve, release⟩ := Takes.adjustStack reserves
    exact (((reserve.append (.plain placed)).append fun _ => .call _ reserves).append
      release).append (.plain stored)
  | branch edge => exact edge.takes prepared known inside
  | branchIf test leads edge =>
    have named := known _ (prepared.mem_blocksOf_of_target inside leads)
    refine (Takes.plain test).append fun rest orderly => ?_
    exact .jumpIf named (edge.takes prepared known inside rest orderly)
  | @branchBoth _ ifFalse ifTrue test edge edge' =>
    have named : lowering.options.platform.label next ∈ names := by
      refine own ?_
      rw [labels_append]
      exact List.mem_append_right _ List.mem_cons_self
    have ifFalse' := edge.takes prepared known inside
    have ifTrue' := edge'.takes prepared known inside
    have front : lowering.Takes rules names (.inside 0) .past
        (_ ++ .jumpIf .notEqual _ :: ifFalse) :=
      (Takes.plain test).append fun rest orderly => .jumpIf named (ifFalse' rest orderly)
    exact front.append fun rest orderly => .resume (.label _ (ifTrue' rest orderly))
  | ret plain => exact (Takes.plain plain).append .epilogue
  | trap => exact fun _ => .trap

/-- **The code of instructions starts without an area**, and ends so unless control leaves it. -/
theorem takes_instructions (fair : lowering.Fair rules) (prepared : lowering.Prepared)
    (known : lowering.Names names) {ids : List ValueId}
    (inside : block ∈ lowering.subject.blocksOf lowering.function)
    (listed : ids ⊆ lowering.subject.instructionsOf block)
    (code : lowering.instructions next block ids = .ok (body, last))
    (own : Asm.labels body ⊆ names) :
    lowering.Takes rules names (.inside 0)
      (.behind (ids.getLast?.any (lowering.subject.hasOpcode Opcode.isTerminator))) body := by
  induction ids generalizing next body last with
  | nil =>
    cases code
    exact .nil
  | cons id ids ih =>
    obtain ⟨⟨lines, after⟩, here, code⟩ := ok_of_bind code
    obtain ⟨⟨others, last⟩, later, code⟩ := ok_of_bind code
    cases code
    obtain ⟨first, listed⟩ := List.cons_subset.mp listed
    rw [labels_append, labels_append, List.append_subset, List.append_subset] at own
    have shape := fair.shape_instruction inside first _ here
    have takes := shape.takes prepared known (List.mem_flatMap.mpr ⟨block, inside, first⟩) own.1.2
    have commented :=
      (Takes.comment lowering.options.comments (lowering.printer.line id)).append takes
    cases ids with
    | nil =>
      cases later
      rw [List.append_nil]
      exact commented
    | cons other ids =>
      have whole := ih listed later own.2
      rw [List.getLast?_cons_cons]
      -- also behind a terminator, where control does not get, the next starts without an area
      refine Takes.append ?_ whole
      cases ends : lowering.subject.hasOpcode Opcode.isTerminator id with
      | false =>
        rw [ends] at commented
        exact commented
      | true =>
        rw [ends] at commented
        exact commented.resume

/-! ### Blocks -/

/-- **Control leaves the code of each block**, so that of the next starts without an area. -/
theorem takes_blocks (fair : lowering.Fair rules) (prepared : lowering.Prepared)
    (known : lowering.Names names) {blocks : List ValueId}
    (inside : ∀ block ∈ blocks, block ∈ lowering.subject.blocksOf lowering.function)
    (code : lowering.blocks next blocks = .ok (body, last)) (own : Asm.labels body ⊆ names) :
    lowering.Takes rules names .past .past body := by
  induction blocks generalizing next body last with
  | nil =>
    cases code
    exact .nil
  | cons block blocks ih =>
    obtain ⟨⟨lines, after⟩, here, code⟩ := ok_of_bind code
    obtain ⟨⟨others, last⟩, later, code⟩ := ok_of_bind code
    cases code
    obtain ⟨first, inside⟩ := List.forall_mem_cons.mp inside
    rw [labels_append, List.append_subset] at own
    have inner : Asm.labels lines ⊆ names := (List.cons_subset.mp own.1).2
    have takes := takes_instructions fair prepared known first (List.Subset.refl _) here inner
    have ended : lowering.subject.isTerminated block = true :=
      Module.isTerminated_of_validate prepared.accepted.valid prepared.accepted.member first
    rw [Module.isTerminated] at ended
    rw [ended] at takes
    exact Takes.append (fun rest orderly => .resume (.label _ (takes rest orderly)))
      (ih inside later own.2)

/-- The labels of blocks are among those of their code. -/
theorem mem_labels_of_blocks {blocks : List ValueId}
    (code : lowering.blocks next blocks = .ok (body, last)) :
    ∀ block ∈ blocks, lowering.label block ∈ Asm.labels body := by
  intro block member
  obtain ⟨_, _, _, before, behind, _, rfl⟩ := hasBlock_of_blocks code block member
  rw [labels_append]
  exact List.mem_append_right _ List.mem_cons_self

/-- **The code of a function is orderly behind its prologue.** -/
theorem exists_orderly (fair : lowering.Fair rules) (prepared : lowering.Prepared)
    (nonempty : lowering.subject.blocksOf lowering.function ≠ [])
    (code : lowering.lines next = .ok (lines, last)) :
    ∃ body, lines = lowering.header ++ (lowering.prologue ++ body) ∧
      lowering.Orderly rules (Asm.labels body) (.inside 0) body := by
  obtain ⟨parameters, saved, code⟩ := ok_of_bind code
  obtain ⟨⟨body, _⟩, blocks, code⟩ := ok_of_bind code
  cases code
  refine ⟨parameters ++ body, by simp only [List.append_assoc], ?_⟩
  have own : Asm.labels body ⊆ Asm.labels (parameters ++ body) := by
    rw [labels_append]
    exact List.subset_append_right _ _
  have known : lowering.Names (Asm.labels (parameters ++ body)) :=
    fun block member => own (mem_labels_of_blocks blocks block member)
  have takes := takes_blocks fair prepared known (fun _ member => member) blocks own
  have orderly := takes [] .finish
  rw [List.append_nil] at orderly
  refine Takes.plain (fair.saveParameters parameters saved) body ?_
  cases orderly with
  | resume orderly => exact orderly
  | finish =>
    -- without lines there are no blocks
    obtain ⟨block, listed⟩ := List.exists_mem_of_ne_nil _ nonempty
    cases mem_labels_of_blocks blocks block listed

/-- The labels of all blocks are in the code behind the prologue. -/
theorem names_of_lines
    (code : lowering.lines next = .ok (lowering.header ++ (lowering.prologue ++ body), last)) :
    lowering.Names (Asm.labels body) := by
  obtain ⟨parameters, _, code⟩ := ok_of_bind code
  obtain ⟨⟨lines, _⟩, blocks, code⟩ := ok_of_bind code
  obtain ⟨same, _⟩ := Prod.mk.inj (Except.ok.inj code)
  obtain rfl : parameters ++ lines = body := by
    simpa only [List.append_assoc, List.append_cancel_left_eq] using same
  intro block member
  rw [labels_append]
  exact List.mem_append_right _ (mem_labels_of_blocks blocks block member)

/-! ### What orderly code is like -/

/-- **Behind a label code starts without an area.** -/
theorem Orderly.of_label
    (orderly : lowering.Orderly rules names stage (first ++ .label name :: lines)) :
    lowering.Orderly rules names (.inside 0) lines := by
  generalize whole : first ++ .label name :: lines = code at orderly
  -- the label is either the line that stands first or among the others
  induction orderly generalizing first with
  | finish => exact absurd whole (by simp)
  | resume _ ih => exact ih whole
  | label other rest ih =>
    rcases List.append_eq_cons_iff.mp whole with ⟨_, same⟩ | ⟨others, _, tail⟩
    · rw [List.cons.injEq] at same
      rwa [same.2]
    · exact ih tail.symm
  | plain plain _ ih =>
    rcases List.append_eq_cons_iff.mp whole with ⟨_, same⟩ | ⟨others, _, tail⟩
    · rw [List.cons.injEq] at same
      have flat := plain.plain
      rw [← same.1] at flat
      cases flat
    · exact ih tail.symm
  | comment _ _ ih | reserve _ _ ih | release _ ih | call _ _ _ ih | jump _ _ ih | jumpIf _ _ ih
  | trap _ ih | leave _ ih | restore _ _ ih | ret _ ih =>
    rcases List.append_eq_cons_iff.mp whole with ⟨_, same⟩ | ⟨others, _, tail⟩
    · cases same
    · exact ih tail.symm

/-- **Code in which epilogues only write registers that are saved.** -/
inductive Restrained : List Line → Prop
  | nil : Restrained []
  | line {line : Line} {lines : List Line} :
    (∀ register ∈ savedRegisters, register ∉ line.written) → Restrained lines →
      Restrained (line :: lines)
  | epilogue {lines : List Line} : Restrained lines → Restrained (epilogue ++ lines)

theorem Restrained.other {line : Line} (restrained : Restrained lines)
    (pointer : line.written ⊆ [.rsp]) : Restrained (line :: lines) := by
  refine .line (fun register member written => ?_) restrained
  have unlike : ∀ register ∈ savedRegisters, register ∉ [Register.rsp] := by decide
  exact unlike register member (pointer written)

/-- Orderly code is restrained, where an epilogue is taken as a whole. -/
theorem Orderly.restrained (orderly : lowering.Orderly rules names stage lines) :
    match stage with
    | .leaving restored => ∃ rest, Restrained rest ∧
      lines = (savedRegisters.reverse.drop restored).map .pop ++ .ret :: rest
    | _ => Restrained lines := by
  induction orderly with
  | finish => exact .nil
  | resume _ ih => exact ih
  | plain plain _ ih =>
    refine .line (fun register member => Line.not_mem_written plain.plain ?_) ih
    have all : ∀ register ∈ savedRegisters, register.isReserved = true := by decide
    exact all register member
  | comment _ _ ih | label _ _ ih | jump _ _ ih | jumpIf _ _ ih | trap _ ih =>
    exact ih.other (List.nil_subset _)
  | reserve _ _ ih | release _ ih | call _ _ _ ih => exact ih.other (List.Subset.refl _)
  | leave _ ih =>
    obtain ⟨rest, restrained, rfl⟩ := ih
    exact .epilogue restrained
  | restore saved _ ih =>
    obtain ⟨rest, restrained, rfl⟩ := ih
    refine ⟨rest, restrained, ?_⟩
    obtain ⟨inside, rfl⟩ := List.getElem?_eq_some_iff.mp saved
    rw [List.drop_eq_getElem_cons inside]
    rfl
  | ret _ ih => exact ⟨_, ih, rfl⟩

end Lowering

end SsaAmd64
