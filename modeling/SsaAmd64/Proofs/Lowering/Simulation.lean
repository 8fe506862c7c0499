/-
**Code does what the interpreter does.**

The code of each instruction takes the machine from where the interpreter stands to where it goes,
and so does the code of a function for as long as the interpreter runs.

* `Lowering.reaches_of_advance`: one instruction;
* `Lowering.reaches_of_run`: all of them, up to the return.
-/

import SsaAmd64.Proofs.Lowering.Branches
import SsaAmd64.Proofs.Lowering.Entry

namespace SsaAmd64

namespace Lowering

open Asm

variable {lowering : Lowering} {base : BitVec 64} {env : Env} {machine : Machine}
variable {id block : ValueId} {config : Config} {outcome : Outcome} {running : Running}
variable {program lines others before behind : List Line} {ids : List ValueId}
variable {next after last number : Nat}

/-- **Code that is left to run behind an instruction**: that of the instructions that remain. -/
structure Remains (lowering : Lowering) (program : List Line) (block : ValueId)
    (ids : List ValueId) (rest : List Line) : Prop where
  inside : block ∈ lowering.subject.blocksOf lowering.function
  suffix : ids <:+ lowering.subject.instructionsOf block
  code : ∃ next code last before behind,
    lowering.instructions next block ids = .ok (code, last) ∧
      rest = code ++ behind ∧ program = before ++ rest

/-- A machine goes on with the instructions that remain. -/
theorem Remains.follows {rest : List Line} (remains : lowering.Remains program block ids rest)
    (represents : lowering.Represents base env machine)
    (foot : machine.registers .rsp = offset base (-(lowering.frame.size : Int))) :
    lowering.Follows program base (.running ⟨env, block, ids⟩) (rest, machine) :=
  ⟨represents, foot, remains.inside, remains.suffix, remains.code⟩

/-- The code of an instruction that computes a value. -/
theorem Remains.reaches_of_assigns {rest : List Line}
    (remains : lowering.Remains program block ids rest)
    (foot : machine.registers .rsp = offset base (-(lowering.frame.size : Int)))
    (assigns : Assigns lowering base env machine lines id number) :
    lowering.Reaches program base (lines ++ rest, machine)
      (.running ⟨env.set id number, block, ids⟩) := by
  obtain ⟨next, done, represents, kept⟩ := assigns
  exact ⟨_, .of_executeAll done, remains.follows represents (kept.trans foot)⟩

theorem executeAll_comment (comments : Bool) (text : String) (machine : Machine) :
    executeAll (comment comments text) machine = some machine := by
  cases comments <;> rfl

/-- What a function of integers returns is an integer. -/
theorem Integral.integral_of_ret {held : Instruction} {value : ValueId}
    (setting : lowering.Integral) (member : id ∈ lowering.subject.bodyOf lowering.function)
    (found : lowering.subject.instruction? id = some held) (kind : held.opcode = .ret)
    (filled : lowering.subject.operand? id 0 = some value) :
    (lowering.subject.typeOf value).IsIntegral := by
  obtain ⟨_, _, accepts⟩ := setting.accepted.accepts member found
  rw [Module.operand?_of_instruction? found] at filled
  obtain ⟨block, inside, _⟩ := List.mem_flatMap.mp member
  obtain ⟨function, known, _⟩ := Module.mem_blocksOf_iff.mp inside
  have typed : lowering.subject.typeOf value = function.signature.result := by
    have own : (RuleContext.of lowering.subject lowering.function).subject.function?
        (RuleContext.of lowering.subject lowering.function).function = some function := known
    refine (accepts.ret kind filled).trans ?_
    rw [RuleContext.resultType, own]
  rw [typed]
  exact (setting.integral.signature function known).1

/-- **The code of an instruction does what the instruction does.** -/
theorem reaches_of_instruction {rest : List Line} (setting : lowering.Integral)
    (hosts : lowering.Hosts program) (returns : lowering.plan.result = some .integer)
    (represents : lowering.Represents base env machine)
    (foot : machine.registers .rsp = offset base (-(lowering.frame.size : Int)))
    (member : id ∈ lowering.subject.bodyOf lowering.function)
    (remains : lowering.Remains program block ids rest)
    (place : program = before ++ (lines ++ rest))
    (code : lowering.instruction next block id = .ok (lines, after))
    (advanced : lowering.subject.advance ⟨env, block, id :: ids⟩ = some outcome) :
    lowering.Reaches program base (lines ++ rest, machine) outcome := by
  obtain ⟨held, found, _⟩ := setting.instruction member
  have opcode : lowering.subject.opcode? id = some held.opcode := by
    rw [Module.opcode?, found]
    rfl
  rw [Lowering.instruction, opcode] at code
  obtain ⟨_, known, advanced⟩ := Option.bind_eq_some_iff.mp advanced
  obtain rfl := Option.some.inj (opcode.symm.trans known)
  cases kind : held.opcode with
  | binary operation =>
    rw [kind] at code advanced
    obtain ⟨_, made, done⟩ := ok_of_bind code
    cases done
    obtain ⟨number, computed, advanced⟩ := Option.bind_eq_some_iff.mp advanced
    obtain rfl := Option.some.inj advanced
    exact remains.reaches_of_assigns foot
      (assigns_binary setting represents member found kind made computed)
  | compare predicate =>
    rw [kind] at code advanced
    obtain ⟨_, made, done⟩ := ok_of_bind code
    cases done
    obtain ⟨number, computed, advanced⟩ := Option.bind_eq_some_iff.mp advanced
    obtain rfl := Option.some.inj advanced
    exact remains.reaches_of_assigns foot
      (assigns_compare setting represents member found kind made computed)
  | convert conversion target =>
    rw [kind] at code advanced
    obtain ⟨_, made, done⟩ := ok_of_bind code
    cases done
    obtain ⟨number, computed, advanced⟩ := Option.bind_eq_some_iff.mp advanced
    obtain rfl := Option.some.inj advanced
    exact remains.reaches_of_assigns foot
      (assigns_convert setting represents member found kind made computed)
  | phi type =>
    rw [kind] at code advanced
    cases code
    obtain rfl := Option.some.inj advanced
    exact ⟨_, .refl _, remains.follows represents foot⟩
  | br =>
    rw [kind] at code advanced
    obtain ⟨_, made, done⟩ := ok_of_bind code
    cases done
    obtain ⟨target, codeTarget, edge⟩ := ok_of_bind made
    obtain ⟨target', filled, entered⟩ := Option.bind_eq_some_iff.mp advanced
    rw [(of_target codeTarget).1] at filled
    obtain rfl := Option.some.inj filled
    exact reaches_of_edge setting hosts represents foot
      (setting.mem_blocksOf_of_target member codeTarget) entered edge _
  | condbr =>
    rw [kind] at code advanced
    obtain ⟨condition, filled, advanced⟩ := Option.bind_eq_some_iff.mp advanced
    obtain ⟨number, computed, advanced⟩ := Option.bind_eq_some_iff.mp advanced
    obtain ⟨target, selected, entered⟩ := Option.bind_eq_some_iff.mp advanced
    exact reaches_of_branchIf setting hosts represents foot member found kind filled computed
      selected entered code place
  | ret =>
    rw [kind] at code advanced
    obtain ⟨_, made, done⟩ := ok_of_bind code
    cases done
    obtain ⟨value, filled, advanced⟩ := Option.bind_eq_some_iff.mp advanced
    obtain ⟨number, computed, advanced⟩ := Option.bind_eq_some_iff.mp advanced
    obtain rfl := Option.some.inj advanced
    obtain ⟨bits, wide, typed⟩ := setting.integral_of_ret member found kind filled
    obtain ⟨first, next, rfl, done, result⟩ :=
      executeAll_ret represents returns filled computed typed wide made
    refine ⟨(.ret :: rest, next), ?_, rest, rfl, result⟩
    rw [List.append_assoc]
    exact .of_executeAll done
  | _ =>
    rw [kind] at advanced
    cases advanced

/-- **One instruction**: the machine gets to where the interpreter does. -/
theorem reaches_of_advance (setting : lowering.Integral) (hosts : lowering.Hosts program)
    (returns : lowering.plan.result = some .integer)
    (simulates : lowering.Simulates program base config running)
    (advanced : lowering.subject.advance config = some outcome) :
    lowering.Reaches program base running outcome := by
  obtain ⟨env, block, ids⟩ := config
  obtain ⟨left, machine⟩ := running
  obtain ⟨represents, foot, inside, suffix, next, code, last, before, behind, made, front, place⟩ :=
    simulates
  cases ids with
  | nil => cases advanced
  | cons id ids =>
    obtain rfl := front
    obtain ⟨⟨lines, after⟩, here, made⟩ := ok_of_bind made
    obtain ⟨⟨others, _⟩, later, made⟩ := ok_of_bind made
    cases made
    have member : id ∈ lowering.subject.bodyOf lowering.function :=
      List.mem_flatMap.mpr ⟨block, inside, suffix.subset List.mem_cons_self⟩
    let text := comment lowering.options.comments (lowering.printer.line id)
    have place' : program = (before ++ text) ++ (lines ++ (others ++ behind)) := by
      rw [place]
      simp only [List.append_assoc]
      rfl
    have remains : lowering.Remains program block ids (others ++ behind) := by
      refine ⟨inside, (List.suffix_cons id ids).trans suffix, after, others, last,
        before ++ text ++ lines, behind, later, rfl, ?_⟩
      rw [place', List.append_assoc (before ++ text)]
    rw [List.append_assoc, List.append_assoc]
    refine .after (.of_executeAll (executeAll_comment _ _ machine)) ?_
    exact reaches_of_instruction setting hosts returns represents foot member remains place' here
      advanced

/-- **All instructions up to the return**: the machine gets there with the result. -/
theorem reaches_of_run (setting : lowering.Integral) (hosts : lowering.Hosts program)
    (returns : lowering.plan.result = some .integer) {steps result : Nat}
    (simulates : lowering.Simulates program base config running)
    (computed : lowering.subject.run steps config = some result) :
    lowering.Reaches program base running (.returned result) := by
  induction steps generalizing config running with
  | zero => cases computed
  | succ steps ih =>
    rw [Module.run] at computed
    split at computed
    case h_1 config' advanced =>
      obtain ⟨next, taken, simulates'⟩ :=
        reaches_of_advance setting hosts returns simulates advanced
      exact .after taken (ih simulates' computed)
    case h_2 value advanced =>
      obtain rfl := Option.some.inj computed
      exact reaches_of_advance setting hosts returns simulates advanced
    case h_3 => cases computed

end Lowering

end SsaAmd64
