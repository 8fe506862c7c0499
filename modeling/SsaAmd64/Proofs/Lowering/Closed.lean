/-
**Closed control flow.**

Control leaves a line by a jump, by a return, by a trap or to the next line. In the code of an
accepted module jumps stay in their function, and the code of each block ends in a line that is not
followed by the next. Labels between the blocks, of edges that assign phis, stand behind such lines
as well. So no execution falls into a block or an edge, and none comes to what stands behind the
function.

* `Asm.Transfers`, `Asm.Sealed`: code that control does not go on from, and into which it does not
  fall half way;
* `Asm.Enclosed`: code whose jumps stay inside;
* `Asm.Enclosed.within_of_execution`: executions stay inside enclosed code;
* `Lowering.sealed_instructions`: the code of a block is sealed;
* `Lowering.Closed`: the code of a function, block by block;
* `Module.compile_closed`: the code of every function of an accepted module is closed.
-/

import SsaAmd64.Proofs.Lowering.Correctness
import SsaAmd64.Proofs.Lowering.Labels
import SsaAmd64.Proofs.Lowering.Stages

namespace SsaAmd64

/-- A place in one list or in another one behind it. -/
theorem append_eq_split {α : Type} {first second front rest : List α} {element : α}
    (whole : first ++ second = front ++ element :: rest) :
    (∃ inner, first = front ++ element :: inner) ∨
      ∃ inner, front = first ++ inner ∧ second = inner ++ element :: rest := by
  rcases List.append_eq_append_iff.mp whole with ⟨inner, same, tail⟩ | ⟨inner, same, tail⟩
  · exact .inr ⟨inner, same, tail⟩
  · cases inner with
    | nil => exact .inr ⟨[], by simpa using same.symm, tail.symm⟩
    | cons other inner =>
      obtain ⟨rfl, _⟩ := List.cons.inj tail
      exact .inl ⟨inner, same⟩

namespace Asm

variable {program first second body : List Line} {line : Line} {name : String}
variable {machine : Machine} {running next : Running}

/-- **Code that control does not go on from** to what stands behind it. -/
def Transfers (lines : List Line) : Prop :=
  ∃ line, lines.getLast? = some line ∧ line.isTransfer = true

theorem Transfers.append (first : List Line) (transfers : Transfers second) :
    Transfers (first ++ second) := by
  obtain ⟨line, last, ends⟩ := transfers
  exact ⟨line, by rw [List.getLast?_append, last]; rfl, ends⟩

theorem transfers_concat : Transfers (first ++ [line]) ↔ line.isTransfer = true := by
  simp [Transfers]

theorem Transfers.ne_nil (transfers : Transfers first) : first ≠ [] := by
  rintro rfl
  obtain ⟨_, last, _⟩ := transfers
  cases last

/-! ### Sealed code -/

/-- **Code that control does not go on from, with labels that it does not fall into.** -/
structure Sealed (lines : List Line) : Prop where
  finish : Transfers lines
  guarded : ∀ front name rest, lines = front ++ .label name :: rest → Transfers front

namespace Sealed

theorem of_labels (none : labels first = []) (finish : Transfers first) : Sealed first := by
  refine ⟨finish, ?_⟩
  rintro front name rest rfl
  have listed : name ∈ labels (front ++ .label name :: rest) :=
    mem_labels_iff.mpr (List.mem_append_right _ List.mem_cons_self)
  rw [none] at listed
  cases listed

/-- Sealed code behind code without labels. -/
theorem behind (none : labels first = []) (later : Sealed second) : Sealed (first ++ second) := by
  refine ⟨later.finish.append first, fun front name rest whole => ?_⟩
  rcases append_eq_split whole with ⟨inner, rfl⟩ | ⟨inner, rfl, tail⟩
  · have listed : name ∈ labels (front ++ .label name :: inner) :=
      mem_labels_iff.mpr (List.mem_append_right _ List.mem_cons_self)
    rw [none] at listed
    cases listed
  · exact (later.guarded inner name rest tail).append first

theorem cons (line : Line) (none : line.definedLabel? = none) (later : Sealed second) :
    Sealed (line :: second) :=
  behind (labels_eq_nil (List.forall_mem_singleton.mpr none)) later

theorem append (one : Sealed first) (other : Sealed second) : Sealed (first ++ second) := by
  refine ⟨other.finish.append first, fun front name rest whole => ?_⟩
  rcases append_eq_split whole with ⟨inner, rfl⟩ | ⟨inner, rfl, tail⟩
  · exact one.guarded front name inner rfl
  · exact (other.guarded inner name rest tail).append first

/-- A label between sealed code. -/
theorem label (one : Sealed first) (name : String) (other : Sealed second) :
    Sealed (first ++ .label name :: second) := by
  refine ⟨(other.finish.append [.label name]).append first, fun front label rest whole => ?_⟩
  rcases append_eq_split whole with ⟨inner, rfl⟩ | ⟨inner, rfl, tail⟩
  · exact one.guarded front label inner rfl
  · cases inner with
    | nil =>
      rw [List.append_nil]
      exact one.finish
    | cons line inner =>
      obtain ⟨_, tail⟩ := List.cons.inj tail
      exact ((other.guarded inner label rest tail).append [line]).append first

end Sealed

/-! ### Enclosed code -/

/-- **Code whose jumps stay inside and that control does not leave at its end.** It may fall into no
label but the first line. -/
structure Enclosed (lines : List Line) : Prop where
  jumps : jumpTargets lines ⊆ labels lines
  finish : Transfers lines
  guarded : ∀ front name rest, lines = front ++ .label name :: rest → front = [] ∨ Transfers front

/-- **Where enclosed code runs**: at one of its lines, which is a label at the start only. -/
def Inside (body behind : List Line) (lines : List Line) : Prop :=
  ∃ front here, body = front ++ here ∧ here ≠ [] ∧ lines = here ++ behind ∧
    (front = [] ∨ ∀ name, here.head? ≠ some (.label name))

theorem isTransfer_of_execute {after : Machine} (done : execute line machine = some after) :
    line.isTransfer = false := by
  cases line <;> first | rfl | cases done

namespace Enclosed

variable {behind before front rest : List Line}

/-- Behind a line that control goes on from, or jumps to, there is another one, no label. -/
theorem inside_of_line (enclosed : Enclosed body) (whole : body = front ++ line :: rest)
    (goes : line.isTransfer = false) : Inside body behind (rest ++ behind) := by
  subst whole
  refine ⟨front ++ [line], rest, by simp, ?_, rfl, .inr fun name head => ?_⟩
  · rintro rfl
    rw [transfers_concat.mp enclosed.finish] at goes
    cases goes
  · obtain ⟨later, rfl⟩ : ∃ later, rest = .label name :: later := List.head?_eq_some_iff.mp head
    rcases enclosed.guarded (front ++ [line]) name later (by simp) with none | transfers
    · cases List.append_eq_nil_iff.mp none |>.2
    · rw [transfers_concat.mp transfers] at goes
      cases goes

/-- A jump of enclosed code continues inside, where labels are unambiguous. -/
theorem inside_of_goto (enclosed : Enclosed body)
    (distinct : (labels (before ++ (body ++ behind))).Nodup)
    (named : name ∈ jumpTargets body) {lines : List Line}
    (found : goto name (before ++ (body ++ behind)) = some lines) : Inside body behind lines := by
  obtain ⟨front, rest, whole⟩ := List.append_of_mem (mem_labels_iff.mp (enclosed.jumps named))
  have place : before ++ (body ++ behind) =
      (before ++ front) ++ .label name :: (rest ++ behind) := by
    rw [whole]
    simp
  rw [goto_of_nodup distinct place] at found
  obtain rfl := Option.some.inj found
  exact enclosed.inside_of_line whole rfl

/-- **A move inside enclosed code stays inside.** -/
theorem inside_of_move (enclosed : Enclosed body)
    (distinct : (labels (before ++ (body ++ behind))).Nodup)
    (inside : Inside body behind running.1)
    (move : Move (before ++ (body ++ behind)) running next) : Inside body behind next.1 := by
  obtain ⟨front, here, whole, nonempty, place, _⟩ := inside
  cases here with
  | nil => exact absurd rfl nonempty
  | cons line later =>
    have named : ∀ name, line.jumpTarget? = some name → name ∈ jumpTargets body := by
      intro name leads
      rw [whole]
      exact List.mem_filterMap.mpr ⟨line, List.mem_append_right _ List.mem_cons_self, leads⟩
    cases move with
    | execute done =>
      obtain ⟨rfl, rfl⟩ := List.cons.inj place
      exact enclosed.inside_of_line whole (isTransfer_of_execute done)
    | jump found | taken found =>
      obtain ⟨rfl, rfl⟩ := List.cons.inj place
      exact enclosed.inside_of_goto distinct (named _ rfl) found
    | skipped | call kept | convert value | set value =>
      obtain ⟨rfl, rfl⟩ := List.cons.inj place
      exact enclosed.inside_of_line whole rfl

/-- **Executions stay inside enclosed code**, and do not fall into labels. -/
theorem inside_of_execution (enclosed : Enclosed body)
    (distinct : (labels (before ++ (body ++ behind))).Nodup)
    (path : Execution (before ++ (body ++ behind)) (body ++ behind, machine) running) :
    Inside body behind running.1 := by
  induction path with
  | refl => exact ⟨[], body, rfl, enclosed.finish.ne_nil, rfl, .inl rfl⟩
  | tail _ move ih => exact enclosed.inside_of_move distinct ih move

end Enclosed

end Asm

namespace Lowering

open Asm

variable {lowering : Lowering} {rules : Nat → StoreRule} {names : List String} {stage : Stage}
variable {block id : ValueId} {next last after : Nat} {lines body parameters : List Line}

/-! ### Instructions -/

theorem Orderly.jumps (orderly : lowering.Orderly rules names stage lines) :
    jumpTargets lines ⊆ names := by
  induction orderly with
  | finish => exact List.nil_subset _
  | jump member _ ih | jumpIf member _ ih => exact List.cons_subset.mpr ⟨member, ih⟩
  | @plain line lines area plain _ ih =>
    have none : line.jumpTarget? = none := by
      have flat := plain.plain
      cases line <;> first | rfl | cases flat
    rw [jumpTargets, List.filterMap_cons, none]
    exact ih
  | _ => assumption

theorem Edge.sealed (edge : lowering.Edge rules id lines) : Sealed lines := by
  refine .of_labels edge.labels_eq ?_
  cases edge with
  | jump assigning leads => exact transfers_concat.mpr rfl

/-- **The code of a terminator is sealed**, that of another instruction has no labels. -/
theorem Shape.sealed {ends : Bool} (shape : lowering.Shape rules id next ends lines after) :
    if ends then Sealed lines else Asm.labels lines = [] := by
  cases shape with
  | plain plain => exact plain.labels_eq
  | call callee reserves placed stored =>
    show Asm.labels _ = []
    simp only [labels_append, labels_adjustStack, placed.labels_eq, stored.labels_eq]
    rfl
  | branch edge => exact edge.sealed
  | branchIf test leads edge => exact .behind test.labels_eq (.cons _ rfl edge.sealed)
  | branchBoth test ifFalse ifTrue =>
    rw [List.append_assoc]
    have front := ifFalse.sealed.label (lowering.options.platform.label next) ifTrue.sealed
    exact .behind test.labels_eq (.cons _ rfl front)
  | @ret returned plain =>
    refine .behind plain.labels_eq (.of_labels rfl ?_)
    exact ⟨.ret, rfl, rfl⟩
  | trap => exact .of_labels rfl ⟨.trap, rfl, rfl⟩

/-- **The code of instructions that end with a terminator is sealed.** -/
theorem sealed_instructions {ids : List ValueId}
    (inside : block ∈ lowering.subject.blocksOf lowering.function)
    (listed : ids ⊆ lowering.subject.instructionsOf block)
    (code : lowering.instructions next block ids = .ok (body, last))
    (ended : ids.getLast?.any (lowering.subject.hasOpcode Opcode.isTerminator) = true) :
    Sealed body := by
  induction ids generalizing next body last with
  | nil => cases ended
  | cons id ids ih =>
    obtain ⟨⟨lines, after⟩, here, code⟩ := ok_of_bind code
    obtain ⟨⟨others, last⟩, later, code⟩ := ok_of_bind code
    cases code
    obtain ⟨first, listed⟩ := List.cons_subset.mp listed
    have shape := ((fair_of_all lowering).shape_instruction inside first _ here).sealed
    have silent := labels_comment lowering.options.comments (lowering.printer.line id)
    rw [List.append_assoc]
    refine .behind silent ?_
    cases ids with
    | nil =>
      cases later
      have ends : lowering.subject.hasOpcode Opcode.isTerminator id = true := ended
      rw [if_pos ends] at shape
      rw [List.append_nil]
      exact shape
    | cons other ids =>
      rw [List.getLast?_cons_cons] at ended
      have rest := ih listed later ended
      split at shape
      case isTrue => exact shape.append rest
      case isFalse => exact .behind shape rest

/-! ### Functions -/

/-- The code of blocks, each behind its label. -/
def sections (lowering : Lowering) (parts : List (ValueId × List Line)) : List Line :=
  parts.flatMap fun part => .label (lowering.label part.1) :: part.2

/-- **The code of a function in which control flow is closed**: the moves of its parameters, and its
blocks with their code. -/
structure Closed (lowering : Lowering) (parameters : List Line)
    (parts : List (ValueId × List Line)) : Prop where
  blocks : parts.map Prod.fst = lowering.subject.blocksOf lowering.function
  code : ∀ part ∈ parts, ∃ next last,
    lowering.instructions next part.1 (lowering.subject.instructionsOf part.1) = .ok (part.2, last)
  /-- All jumps of the function are in its blocks. -/
  entry : jumpTargets (lowering.header ++ (lowering.prologue ++ parameters)) = []
  /-- No label comes between that of the function and that of its first block. -/
  labels : Asm.labels (lowering.prologue ++ parameters) = []
  sealed : ∀ part ∈ parts, Sealed part.2
  enclosed : Enclosed (lowering.sections parts)

theorem exists_parts {blocks : List ValueId} (code : lowering.blocks next blocks = .ok (body, last)) :
    ∃ parts, parts.map Prod.fst = blocks ∧ body = lowering.sections parts ∧
      ∀ part ∈ parts, ∃ next last,
        lowering.instructions next part.1 (lowering.subject.instructionsOf part.1) =
          .ok (part.2, last) := by
  induction blocks generalizing next body last with
  | nil =>
    cases code
    exact ⟨[], rfl, rfl, nofun⟩
  | cons block blocks ih =>
    obtain ⟨⟨lines, after⟩, here, code⟩ := ok_of_bind code
    obtain ⟨⟨others, last⟩, later, code⟩ := ok_of_bind code
    cases code
    obtain ⟨parts, rfl, rfl, made⟩ := ih later
    exact ⟨(block, lines) :: parts, rfl, rfl, List.forall_mem_cons.mpr ⟨⟨_, _, here⟩, made⟩⟩

/-- Control leaves the code of each block elsewhere than to the next. -/
theorem guarded_sections {parts : List (ValueId × List Line)}
    (sealed : ∀ part ∈ parts, Sealed part.2) :
    ∀ front name rest, lowering.sections parts = front ++ .label name :: rest →
      front = [] ∨ Transfers front := by
  induction parts with
  | nil =>
    intro front name rest whole
    exact absurd whole.symm (List.append_ne_nil_of_right_ne_nil _ (List.cons_ne_nil _ _))
  | cons part parts ih =>
    obtain ⟨here, later⟩ := List.forall_mem_cons.mp sealed
    intro front name rest whole
    rcases List.cons_eq_append_iff.mp whole with ⟨none, _⟩ | ⟨others, rfl, behind⟩
    · exact .inl none
    · refine .inr (.append [_] ?_)
      rcases append_eq_split behind with ⟨inner, same⟩ | ⟨inner, rfl, same⟩
      · exact here.guarded others name inner same
      · rcases ih later inner name rest same with rfl | transfers
        · rw [List.append_nil]
          exact here.finish
        · exact transfers.append part.2

theorem transfers_sections {parts : List (ValueId × List Line)} (nonempty : parts ≠ [])
    (sealed : ∀ part ∈ parts, Sealed part.2) : Transfers (lowering.sections parts) := by
  obtain ⟨others, part, rfl⟩ := List.eq_nil_or_concat parts |>.resolve_left nonempty
  have last := sealed part (by simp)
  rw [sections, List.concat_eq_append, List.flatMap_append, List.flatMap_singleton]
  exact (last.finish.append [_]).append _

theorem jumpTargets_of_plain {rule : StoreRule} (plain : lowering.Plain rule lines) :
    jumpTargets lines = [] := by
  refine List.filterMap_eq_nil_iff.mpr fun line member => ?_
  have flat := (plain line member).plain
  cases line <;> first | rfl | cases flat

theorem jumpTargets_header (lowering : Lowering) : jumpTargets lowering.header = [] := by
  rw [header, comment]
  cases lowering.options.comments <;> cases lowering.options.platform.isElf <;> rfl

theorem jumpTargets_prologue (lowering : Lowering) : jumpTargets lowering.prologue = [] := by
  rw [prologue, adjustStack]
  split <;> split <;> rfl

/-- **The code of a function of an accepted module is closed.** -/
theorem exists_closed (prepared : lowering.Prepared)
    (nonempty : lowering.subject.blocksOf lowering.function ≠ [])
    (code : lowering.lines next = .ok (lines, last)) :
    ∃ parameters parts, lowering.saveParameters = .ok parameters ∧
      lines = lowering.header ++ (lowering.prologue ++ parameters) ++ lowering.sections parts ∧
      lowering.Closed parameters parts := by
  obtain ⟨body', same, orderly⟩ := exists_orderly (fair_of_all lowering) prepared nonempty code
  obtain ⟨parameters, saved, code⟩ := ok_of_bind code
  obtain ⟨⟨body, _⟩, blocks, code⟩ := ok_of_bind code
  cases code
  obtain ⟨parts, listed, rfl, made⟩ := exists_parts blocks
  have plain := (fair_of_all lowering).saveParameters parameters saved
  have sealed : ∀ part ∈ parts, Sealed part.2 := by
    intro part member
    obtain ⟨next, last, code⟩ := made part member
    have inside : part.1 ∈ lowering.subject.blocksOf lowering.function :=
      listed ▸ List.mem_map_of_mem member
    exact sealed_instructions inside (List.Subset.refl _) code
      (Module.isTerminated_of_validate prepared.accepted.valid prepared.accepted.member inside)
  obtain rfl : parameters ++ lowering.sections parts = body' := by
    simpa only [List.append_assoc, List.append_cancel_left_eq] using same
  refine ⟨parameters, parts, saved, by simp only [List.append_assoc], listed, made, ?_, ?_, sealed,
    ?_, ?_, guarded_sections sealed⟩
  · rw [jumpTargets_append, jumpTargets_append, jumpTargets_header, jumpTargets_prologue,
      jumpTargets_of_plain plain]
    rfl
  · rw [labels_append, labels_prologue, plain.labels_eq]
    rfl
  · have jumps := orderly.jumps
    rw [jumpTargets_append, labels_append, jumpTargets_of_plain plain, plain.labels_eq] at jumps
    exact jumps
  · refine transfers_sections ?_ sealed
    rintro rfl
    exact nonempty listed.symm

end Lowering

namespace Module

open Asm

variable {m : Module} {options : Options} {program : List Line} {function : ValueId}

/-- **Control flow is closed** in the code of each function of an accepted module: its jumps stay in
its blocks, the code of each block ends in a jump, a return or a trap, and no execution that starts
at its first block leaves its blocks, or goes on from one line to a label. -/
theorem compile_closed (built : m.Built) (compiled : m.compile options = .ok program)
    (member : function ∈ m.functions) (defined : (m.blocksOf function).isEmpty = false) :
    ∃ lowering parameters parts before behind,
      Lowering.Makes m options program function lowering ∧
      lowering.saveParameters = .ok parameters ∧
      program = before ++ (lowering.header ++ (lowering.prologue ++ parameters)) ++
        (lowering.sections parts ++ behind) ∧
      lowering.Closed parameters parts ∧
      ((labels program).Nodup → ∀ (machine : Machine) running,
        Execution program (lowering.sections parts ++ behind, machine) running →
          Inside (lowering.sections parts) behind running.1) := by
  obtain ⟨lowering, makes⟩ := Lowering.exists_makes compiled member defined
  have prepared := makes.prepared built compiled member
  obtain ⟨rfl, rfl, rfl⟩ := makes.eq
  obtain ⟨start, after, code, last, _, lines, before, behind, within⟩ := makes.stands
  have nonempty : lowering.subject.blocksOf lowering.function ≠ [] := by
    rw [← List.isEmpty_eq_false_iff]
    exact defined
  obtain ⟨parameters, parts, saved, rfl, closed⟩ :=
    Lowering.exists_closed prepared nonempty lines
  have place : program = before ++ (lowering.header ++ (lowering.prologue ++ parameters)) ++
      (lowering.sections parts ++ behind) := by
    rw [← within]
    simp only [List.append_assoc]
  refine ⟨lowering, parameters, parts, before, behind, makes, saved, place, closed, ?_⟩
  rw [place]
  exact fun distinct machine running path => closed.enclosed.inside_of_execution distinct path

/-- The loop for the greatest common divisor has a label for the edge that leads back. -/
theorem compile_closed_gcd : ∃ program lowering parameters parts before behind,
    gcd.compile Options.default = .ok program ∧
    labels program = ["gcd", ".L0", ".L1", ".L3", ".L2"] ∧
    jumpTargets program = [".L1", ".L3", ".L2", ".L1"] ∧
    Lowering.Makes gcd Options.default program ⟨0⟩ lowering ∧
    program = before ++ (lowering.header ++ (lowering.prologue ++ parameters)) ++
      (lowering.sections parts ++ behind) ∧
    lowering.Closed parameters parts ∧
    ∀ (machine : Machine) running,
      Execution program (lowering.sections parts ++ behind, machine) running →
        Inside (lowering.sections parts) behind running.1 := by
  have made : ((gcd.assemble Options.default).toOption.any fun program =>
      labels program = ["gcd", ".L0", ".L1", ".L3", ".L2"] ∧
        jumpTargets program = [".L1", ".L3", ".L2", ".L1"]) = true := by decide +kernel
  obtain ⟨program, _, compiled, passed⟩ := Lowering.exists_program validate_gcd made
  obtain ⟨named, led⟩ := of_decide_eq_true passed
  obtain ⟨lowering, parameters, parts, before, behind, makes, _, place, closed, inside⟩ :=
    compile_closed (built_builtBy "gcd" gcdSteps) compiled (by decide +kernel)
      (show (gcd.blocksOf ⟨0⟩).isEmpty = false by decide +kernel)
  have distinct : (labels program).Nodup := by
    rw [named]
    decide
  exact ⟨program, lowering, parameters, parts, before, behind, compiled, named, led, makes, place,
    closed, inside distinct⟩

end Module

end SsaAmd64
