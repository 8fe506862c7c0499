/-
**Where code stands.**

The code of a module contains that of each function with a body, and the code of a function contains
that of each of its blocks behind the label of the block.

* `Lowering.exists_of_assemble`: the code of a function in the code of its module;
* `Lowering.exists_instruction_of_lines`: the code of an instruction in the code of its function;
* `Lowering.Hosts`: a program with the code of all blocks of a function;
* `Lowering.Hosts.enter`: a jump to a block continues with its code.
-/

import SsaAmd64.Lowering.Module
import SsaAmd64.Proofs.Machine.Execution
import SsaAmd64.Proofs.Outcomes

namespace SsaAmd64

namespace Lowering

open Asm

variable {printer : Printer} {options : Options} {symbols : Symbols} {lowering : Lowering}
variable {function block : ValueId} {program lines body : List Line} {last : Nat}

/-! ### Functions -/

/-- The code of a function with a body is made, and stands among that of all. -/
theorem exists_of_functions {next : Nat} {listed : List ValueId}
    (code : functions printer options symbols next listed = .ok lines) (member : function ∈ listed)
    (defined : (printer.subject.blocksOf function).isEmpty = false) :
    ∃ start lowering after code last before behind,
      Lowering.of printer options symbols start function = .ok (lowering, after) ∧
      lowering.lines after = .ok (code, last) ∧ lines = before ++ code ++ behind := by
  induction listed generalizing next lines with
  | nil => cases member
  | cons first others ih =>
    rw [functions] at code
    by_cases same : first = function
    · subst same
      rw [if_neg (by simp [defined])] at code
      obtain ⟨⟨lowering, after⟩, made, code⟩ := ok_of_bind code
      obtain ⟨⟨lines, last⟩, body, code⟩ := ok_of_bind code
      obtain ⟨rest, _, code⟩ := ok_of_bind code
      obtain rfl := Except.ok.inj code
      exact ⟨next, lowering, after, lines, last, [], rest, made, body, rfl⟩
    · have later : function ∈ others := (List.mem_cons.mp member).resolve_left (Ne.symm same)
      split at code
      case isTrue => exact ih code later
      case isFalse =>
        obtain ⟨⟨_, after⟩, _, code⟩ := ok_of_bind code
        obtain ⟨⟨skipped, last⟩, _, code⟩ := ok_of_bind code
        obtain ⟨rest, code', code⟩ := ok_of_bind code
        obtain rfl := Except.ok.inj code
        obtain ⟨start, lowering, after, lines, last, before, behind, made, body, rfl⟩ :=
          ih code' later
        refine ⟨start, lowering, after, lines, last, skipped ++ before, behind, made, body, ?_⟩
        simp only [List.append_assoc]

/-- The program of an accepted module passes a test. -/
theorem exists_program {m : Module} {test : List Line → Bool} (valid : m.validate = .ok ())
    (passed : (m.assemble options).toOption.any test = true) :
    ∃ program, m.assemble options = .ok program ∧ m.compile options = .ok program ∧
      test program = true := by
  have compiled : m.compile options = m.assemble options := by
    rw [Module.compile, valid]
    rfl
  cases assembled : m.assemble options with
  | error failure =>
    rw [assembled] at passed
    cases passed
  | ok program =>
    rw [assembled] at passed
    exact ⟨program, rfl, compiled.trans assembled, passed⟩

/-- **The code of a module contains that of each function with a body.** -/
theorem exists_of_assemble {m : Module} (assembled : m.assemble options = .ok program)
    (member : function ∈ m.functions) (defined : (m.blocksOf function).isEmpty = false) :
    ∃ symbols start lowering after code last before behind,
      Symbols.of (Printer.of m) options.platform = .ok symbols ∧
      Lowering.of (Printer.of m) options symbols start function = .ok (lowering, after) ∧
      lowering.lines after = .ok (code, last) ∧ program = before ++ code ++ behind := by
  obtain ⟨symbols, named, assembled⟩ := ok_of_bind assembled
  obtain ⟨data, _, assembled⟩ := ok_of_bind assembled
  obtain ⟨text, functions, assembled⟩ := ok_of_bind assembled
  obtain rfl := Except.ok.inj assembled
  obtain ⟨start, lowering, after, code, last, before, behind, made, lines, rfl⟩ :=
    exists_of_functions functions member defined
  refine ⟨symbols, start, lowering, after, code, last,
    data ++ [.directive ".text"] ++ before, behind ++ footer options.platform, named, made, lines,
    ?_⟩
  simp only [List.append_assoc]

/-- So does that of a module that is accepted. -/
theorem exists_of_compile {m : Module} (compiled : m.compile options = .ok program)
    (member : function ∈ m.functions) (defined : (m.blocksOf function).isEmpty = false) :
    m.validate = .ok () ∧ ∃ symbols start lowering after code last before behind,
      Symbols.of (Printer.of m) options.platform = .ok symbols ∧
      Lowering.of (Printer.of m) options symbols start function = .ok (lowering, after) ∧
      lowering.lines after = .ok (code, last) ∧ program = before ++ code ++ behind := by
  obtain ⟨_, valid, assembled⟩ := ok_of_bind compiled
  exact ⟨ok_of_mapError valid, exists_of_assemble assembled member defined⟩

/-- The code of a function is made with its frame and with the plan of its signature. -/
theorem eq_of_made {start after : Nat}
    (made : Lowering.of printer options symbols start function = .ok (lowering, after)) :
    lowering.printer = printer ∧ lowering.options = options ∧ lowering.symbols = symbols ∧
      lowering.function = function ∧
      Frame.of lowering.subject lowering.function = .ok lowering.frame ∧
      ∀ held, lowering.subject.function? lowering.function = some held →
        lowering.convention.plan held.signature.parameters held.signature.result =
          .ok lowering.plan := by
  obtain ⟨plan, planned, made⟩ := ok_of_bind made
  obtain ⟨frame, framed, made⟩ := ok_of_bind made
  cases made
  refine ⟨rfl, rfl, rfl, rfl, framed, fun held found => ?_⟩
  have planned := ok_of_mapError planned
  have found' : printer.subject.function? function = some held := found
  rw [found'] at planned
  exact planned

/-! ### Blocks -/

/-- The code of a block stands in a program behind its label. -/
def HasBlock (lowering : Lowering) (program : List Line) (block : ValueId) : Prop :=
  ∃ next code last before behind,
    lowering.instructions next block (lowering.subject.instructionsOf block) = .ok (code, last) ∧
    program = before ++ .label (lowering.label block) :: (code ++ behind)

theorem HasBlock.append (has : lowering.HasBlock body block) (before behind : List Line) :
    lowering.HasBlock (before ++ body ++ behind) block := by
  obtain ⟨next, code, last, before', behind', made, rfl⟩ := has
  refine ⟨next, code, last, before ++ before', behind' ++ behind, made, ?_⟩
  simp only [List.append_assoc, List.cons_append]

theorem hasBlock_of_blocks {next : Nat} {listed : List ValueId}
    (code : lowering.blocks next listed = .ok (body, last)) :
    ∀ block ∈ listed, lowering.HasBlock body block := by
  induction listed generalizing next body with
  | nil => exact fun _ member => (nomatch member)
  | cons first others ih =>
    obtain ⟨⟨lines, after⟩, here, code⟩ := ok_of_bind code
    obtain ⟨⟨rest, last⟩, later, code⟩ := ok_of_bind code
    cases code
    refine List.forall_mem_cons.mpr ⟨⟨next, lines, after, [], rest, here, rfl⟩, ?_⟩
    intro block member
    have has := (ih later block member).append (.label (lowering.label first) :: lines) []
    rwa [List.append_nil] at has

/-- The code of an instruction is part of that of its block. -/
theorem exists_instruction {next : Nat} {ids : List ValueId} {id : ValueId}
    (code : lowering.instructions next block ids = .ok (body, last)) (member : id ∈ ids) :
    ∃ start part after, lowering.instruction start block id = .ok (part, after) ∧
      part <:+: body := by
  induction ids generalizing next body with
  | nil => cases member
  | cons first others ih =>
    obtain ⟨⟨part, after⟩, here, code⟩ := ok_of_bind code
    obtain ⟨⟨rest, _⟩, later, code⟩ := ok_of_bind code
    cases code
    rcases List.mem_cons.mp member with rfl | inside
    · exact ⟨next, part, after, here, List.infix_append _ _ _⟩
    · obtain ⟨start, part, after, made, within⟩ := ih later inside
      exact ⟨start, part, after, made, within.trans (List.suffix_append _ _).isInfix⟩

/-- The code of an instruction is part of that of its function. -/
theorem exists_instruction_of_lines {next : Nat} {code : List Line} {id : ValueId}
    (lines : lowering.lines next = .ok (code, last))
    (inside : block ∈ lowering.subject.blocksOf lowering.function)
    (listed : id ∈ lowering.subject.instructionsOf block) :
    ∃ start part after, lowering.instruction start block id = .ok (part, after) ∧
      part <:+: code := by
  obtain ⟨parameters, _, lines⟩ := ok_of_bind lines
  obtain ⟨⟨body, _⟩, blocks, lines⟩ := ok_of_bind lines
  cases lines
  obtain ⟨_, code, _, before, behind, made, rfl⟩ := hasBlock_of_blocks blocks block inside
  obtain ⟨start, part, after, made, within⟩ := exists_instruction made listed
  have whole : code <:+: before ++ .label (lowering.label block) :: (code ++ behind) :=
    ⟨before ++ [.label (lowering.label block)], behind, by simp only [List.append_assoc,
      List.cons_append, List.nil_append]⟩
  exact ⟨start, part, after, made,
    (within.trans whole).trans (List.suffix_append _ _).isInfix⟩

/-- The code of a function has its label, its prologue and the moves of its parameters, one behind
the other. -/
theorem exists_entry_of_lines {next : Nat} {code : List Line}
    (lines : lowering.lines next = .ok (code, last)) :
    ∃ parameters, lowering.saveParameters = .ok parameters ∧
      .label (lowering.symbols.symbol lowering.function) :: (lowering.prologue ++ parameters) <:+:
        code := by
  obtain ⟨parameters, saved, lines⟩ := ok_of_bind lines
  obtain ⟨⟨body, _⟩, _, lines⟩ := ok_of_bind lines
  cases lines
  obtain ⟨directives, header⟩ : ∃ directives, lowering.header =
      directives ++ [.label (lowering.symbols.symbol lowering.function)] := ⟨_, rfl⟩
  refine ⟨parameters, saved, directives, body, ?_⟩
  rw [header]
  simp only [List.append_assoc, List.cons_append, List.nil_append]

/-- **A program that contains the code of all blocks of a function**, and defines no label twice. -/
structure Hosts (lowering : Lowering) (program : List Line) : Prop where
  distinct : (Asm.labels program).Nodup
  blocks : ∀ block ∈ lowering.subject.blocksOf lowering.function, lowering.HasBlock program block

/-- **A jump to a block continues with its code.** -/
theorem Hosts.enter (hosts : lowering.Hosts program)
    (inside : block ∈ lowering.subject.blocksOf lowering.function) :
    ∃ next code last before behind,
      lowering.instructions next block (lowering.subject.instructionsOf block) = .ok (code, last) ∧
      goto (lowering.label block) program = some (code ++ behind) ∧
      program = before ++ (code ++ behind) := by
  obtain ⟨next, code, last, before, behind, made, place⟩ := hosts.blocks block inside
  refine ⟨next, code, last, before ++ [.label (lowering.label block)], behind, made,
    goto_of_nodup hosts.distinct place, ?_⟩
  rw [List.append_assoc]
  exact place

/-- **A function starts behind its label**, with its prologue and the moves of its parameters, and
goes on with the block that comes first. -/
theorem hosts_of_lines {next : Nat} {code before behind : List Line} {entry : ValueId}
    (lines : lowering.lines next = .ok (code, last))
    (distinct : (Asm.labels (before ++ code ++ behind)).Nodup)
    (first : lowering.subject.entryOf? lowering.function = some entry) :
    lowering.Hosts (before ++ code ++ behind) ∧
      ∃ parameters, lowering.saveParameters = .ok parameters ∧
      ∃ start last code' behind' before',
        lowering.instructions start entry (lowering.subject.instructionsOf entry) =
          .ok (code', last) ∧
        before ++ code ++ behind = before' ++ (code' ++ behind') ∧
        goto (lowering.symbols.symbol lowering.function) (before ++ code ++ behind) =
          some (lowering.prologue ++ parameters ++ .label (lowering.label entry) ::
            (code' ++ behind')) := by
  obtain ⟨parameters, saved, made⟩ := ok_of_bind lines
  obtain ⟨⟨body, _⟩, blocks, made⟩ := ok_of_bind made
  cases made
  have has := hasBlock_of_blocks blocks
  constructor
  · refine ⟨distinct, fun block inside => ?_⟩
    have inner := (has block inside).append
      (before ++ (lowering.header ++ lowering.prologue ++ parameters)) behind
    rwa [List.append_assoc before] at inner
  · rw [Module.entryOf?, List.head?_eq_some_iff] at first
    obtain ⟨others, order⟩ := first
    rw [order] at blocks
    obtain ⟨⟨code', after⟩, here, blocks⟩ := ok_of_bind blocks
    obtain ⟨⟨rest, last⟩, later, blocks⟩ := ok_of_bind blocks
    cases blocks
    obtain ⟨directives, header⟩ : ∃ directives, lowering.header =
        directives ++ [.label (lowering.symbols.symbol lowering.function)] := ⟨_, rfl⟩
    refine ⟨parameters, saved, next, after, code', rest ++ behind,
      before ++ (lowering.header ++ lowering.prologue ++ parameters) ++
        [.label (lowering.label entry)], here, ?_, ?_⟩
    · simp only [List.append_assoc, List.cons_append, List.nil_append]
    · have place : before ++ (lowering.header ++ lowering.prologue ++ parameters ++
          (.label (lowering.label entry) :: code' ++ rest)) ++ behind =
          (before ++ directives) ++ .label (lowering.symbols.symbol lowering.function) ::
            (lowering.prologue ++ parameters ++ .label (lowering.label entry) ::
              (code' ++ (rest ++ behind))) := by
        rw [header]
        simp only [List.append_assoc, List.cons_append, List.nil_append]
      exact goto_of_nodup distinct place

end Lowering

end SsaAmd64
