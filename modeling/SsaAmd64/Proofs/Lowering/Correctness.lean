/-
**Code generation preserves meaning.**

A function that computes with integers is interpreted, and its code is run with the same arguments
in the places of its call plan. When the interpreter returns a result, the code gets to a return
with this result in `%rax`.

* `Module.compile_preserves`: for every function of integers of a module for which code is made.
-/

import SsaAmd64.Proofs.Lowering.Simulation

namespace SsaAmd64

open Asm

/-- **Code generation preserves what a function of integers returns.** Values go by handles of 32
bits, and no label may be defined twice. -/
theorem Module.compile_preserves {m : Module} {options : Options} {program : List Line}
    {function : ValueId} {held : Function} {arguments : List Nat} {steps result : Nat}
    (built : m.Built) (small : m.entries.size ≤ 0x100000000)
    (compiled : m.compile options = .ok program) (distinct : (labels program).Nodup)
    (member : function ∈ m.functions) (found : m.function? function = some held)
    (integral : m.IsIntegral function)
    (computed : m.interpret function arguments steps = some result) :
    ∃ symbols plan, Symbols.of (Printer.of m) options.platform = .ok symbols ∧
      options.platform.convention.plan held.signature.parameters held.signature.result =
        .ok plan ∧
      ∀ machine, Passes machine held.signature.parameters plan.arguments arguments →
        ∃ start rest final, goto (symbols.symbol function) program = some start ∧
          Steps program (start, machine) (.ret :: rest, final) ∧
          (final.registers .rax).toNat = result := by
  obtain ⟨entry, first, computed⟩ := Option.bind_eq_some_iff.mp computed
  have inside : entry ∈ m.blocksOf function := List.mem_of_mem_head? first
  have defined : (m.blocksOf function).isEmpty = false := by
    rw [List.isEmpty_eq_false_iff]
    exact List.ne_nil_of_mem inside
  obtain ⟨valid, symbols, start, lowering, after, code, last, before, behind, named, made, lines,
    rfl⟩ := Lowering.exists_of_compile compiled member defined
  obtain ⟨own, rfl, rfl, rfl, _, planned⟩ := Lowering.eq_of_made made
  obtain rfl : lowering.subject = m := congrArg Printer.subject own
  have prepared := Lowering.Prepared.of_made made ⟨built, valid, member⟩ named
  have setting : lowering.Integral := ⟨prepared, small, integral⟩
  have planned := planned held found
  have signature := integral.signature held found
  obtain ⟨returns, _⟩ := Convention.direct_of_plan signature.2 signature.1 planned
  obtain ⟨hosts, parameters, saved, next, last, body, rest, front, bodyMade, place, label⟩ :=
    Lowering.hosts_of_lines lines distinct first
  refine ⟨lowering.symbols, lowering.plan, named, planned, fun machine passes => ?_⟩
  -- the prologue and the moves of the parameters lead to the block that comes first
  obtain ⟨base, entered, enters, represents, foot⟩ :=
    Lowering.executeAll_entry setting found planned passes saved
  have simulates : lowering.Simulates _ base ⟨_, entry, lowering.subject.instructionsOf entry⟩
      (body ++ rest, entered) :=
    ⟨represents, foot, inside, List.suffix_refl _, next, body, last, front, rest, bodyMade, rfl,
      place⟩
  have steps : Steps (before ++ code ++ behind)
      (lowering.prologue ++ parameters ++ .label (lowering.label entry) :: (body ++ rest), machine)
      (.label (lowering.label entry) :: (body ++ rest), entered) := .of_executeAll enters
  obtain ⟨⟨left, final⟩, later, others, rfl, value⟩ :=
    Lowering.reaches_of_run setting hosts returns simulates computed
  exact ⟨_, others, final, label, (steps.trans (.head rfl (.refl _))).trans later, value⟩

/-- A loop for the greatest common divisor, in which one phi takes the old value of another. -/
def gcdSteps : List Operation :=
  [.addFunction ⟨[.int 32, .int 32], .int 32, false⟩ "gcd",
    .addBlock ⟨0⟩ .finish "entry", .addBlock ⟨0⟩ .finish "loop", .addBlock ⟨0⟩ .finish "exit",
    .insert ⟨some (.finish ⟨3⟩)⟩ (.br ⟨4⟩) "",
    .insert ⟨some (.finish ⟨4⟩)⟩ (.phi (.int 32)) "x",
    .insert ⟨some (.finish ⟨4⟩)⟩ (.phi (.int 32)) "y",
    .insert ⟨some (.finish ⟨4⟩)⟩ (.binary .urem ⟨7⟩ ⟨8⟩) "remainder",
    .addLiteral (.ofNat 32 0),
    .insert ⟨some (.finish ⟨4⟩)⟩ (.compare .neq ⟨9⟩ ⟨10⟩) "more",
    .insert ⟨some (.finish ⟨4⟩)⟩ (.condbr ⟨11⟩ ⟨4⟩ ⟨5⟩) "",
    .addIncoming ⟨7⟩ ⟨1⟩ ⟨3⟩, .addIncoming ⟨7⟩ ⟨8⟩ ⟨4⟩,
    .addIncoming ⟨8⟩ ⟨2⟩ ⟨3⟩, .addIncoming ⟨8⟩ ⟨9⟩ ⟨4⟩,
    .insert ⟨some (.finish ⟨5⟩)⟩ (.ret (some ⟨8⟩)) ""]

namespace Module

def gcd : Module := builtBy "gcd" gcdSteps

theorem validate_gcd : gcd.validate = .ok () := by
  have functions : gcd.functions = [⟨0⟩] := by decide +kernel
  have flow : (Cfg.of gcd ⟨0⟩).nodes = [(⟨3⟩, [⟨4⟩]), (⟨4⟩, [⟨4⟩, ⟨5⟩]), (⟨5⟩, [])] := by
    decide +kernel
  have dominators : DominatorTree.of (Cfg.mk ⟨0⟩
      [(⟨3⟩, [⟨4⟩]), (⟨4⟩, [⟨4⟩, ⟨5⟩]), (⟨5⟩, [])]).graph =
        ⟨[⟨3⟩, ⟨4⟩, ⟨5⟩], [none, some 0, some 1]⟩ :=
    DominatorTree.of_eq (by decide +kernel) (by decide +kernel) (by decide +kernel)
  exact validate_of_checks functions (by decide +kernel) (context_eq flow dominators)
    (by decide +kernel) (by decide +kernel)

/-- A machine that calls with two arguments in registers. -/
def calling (first second : BitVec 64) : Machine where
  registers register := if register = .rdi then first else if register = .rsi then second else 0
  memory _ := 0
  flags := none
  symbols _ := 0

/-- The code for the greatest common divisor, called with 12 and 18, returns 6. What is above the low
halves of the registers does not matter. -/
theorem compile_preserves_gcd : ∃ program, gcd.compile Options.default = .ok program ∧
    ∃ start rest final, goto "gcd" program = some start ∧
      Steps program (start, calling 0xff0000000c 0xff00000012) (.ret :: rest, final) ∧
      (final.registers .rax).toNat = 6 := by
  have made : (gcd.assemble Options.default).toOption.any
      (fun program => decide (labels program).Nodup) = true := by decide +kernel
  have label : (Symbols.of (Printer.of gcd) .linux).toOption.map (·.symbol ⟨0⟩) = some "gcd" := by
    decide +kernel
  cases assembled : gcd.assemble Options.default with
  | error failure =>
    rw [assembled] at made
    cases made
  | ok program =>
    rw [assembled] at made
    have compiled : gcd.compile Options.default = .ok program := by
      rw [compile, validate_gcd]
      exact assembled
    have signature : (gcd.function? ⟨0⟩).map (fun held =>
        (held.signature.parameters, held.signature.result)) =
          some ([.int 32, .int 32], .int 32) := by decide +kernel
    obtain ⟨held, found, signature⟩ := Option.map_eq_some_iff.mp signature
    obtain ⟨parameters, returned⟩ := Prod.mk.inj signature
    obtain ⟨symbols, plan, named, planned, preserves⟩ := compile_preserves
      (built_builtBy "gcd" gcdSteps) (by decide +kernel) compiled (of_decide_eq_true made)
      (by decide +kernel) found (by decide +kernel)
      (by decide +kernel : gcd.interpret ⟨0⟩ [12, 18] 24 = some 6)
    have named' : Symbols.of (Printer.of gcd) .linux = .ok symbols := named
    rw [named'] at label
    have name : symbols.symbol ⟨0⟩ = "gcd" := Option.some.inj label
    have registers : Convention.systemV.plan [.int 32, .int 32] (.int 32) =
        .ok ⟨[⟨.integer, .general .rdi, none⟩, ⟨.integer, .general .rsi, none⟩],
          some .integer, 0, 0⟩ := rfl
    rw [parameters, returned] at planned
    obtain rfl := Except.ok.inj (registers.symm.trans planned)
    rw [parameters, name] at preserves
    refine ⟨program, compiled, preserves _ ?_⟩
    exact .cons (by decide) (by decide) (.cons (by decide) (by decide) .nil)

end Module

end SsaAmd64
