/-
**Names do not matter.**

Two modules that differ in names only, their own or those of their values: whatever is asked of them
without looking at names has the same answer.

* `Module.Renamed`: modules that differ in names only;
* `Module.Renamed.typeOf` and the like: what both have in common;
* `Module.Renamed.modify`: a change of names.
-/

import SsaAmd64.Flow.Cfg
import SsaAmd64.Proofs.Ir.Changes

namespace SsaAmd64

namespace Module

variable {m next : Module} {id : ValueId} {change : Entry → Entry}

/-- **Two modules that differ in names only**, their own or those of their values. -/
structure Renamed (m next : Module) : Prop where
  size : next.entries.size = m.entries.size
  functions : next.functions = m.functions
  globals : next.globals = m.globals
  content? : next.content? = m.content?
  uses : next.uses = m.uses

namespace Renamed

theorem refl (m : Module) : Renamed m m :=
  ⟨rfl, rfl, rfl, rfl, rfl⟩

theorem trans {first second third : Module} (one : Renamed first second)
    (other : Renamed second third) : Renamed first third :=
  ⟨other.size.trans one.size, other.functions.trans one.functions,
    other.globals.trans one.globals, other.content?.trans one.content?, other.uses.trans one.uses⟩

theorem modify (m : Module) (id : ValueId) (content : ∀ entry, (change entry).content = entry.content)
    (uses : ∀ entry, (change entry).uses = entry.uses) : Renamed m (m.modify id change) := by
  refine ⟨size_modify m id change, rfl, rfl, funext fun other => ?_,
    funext fun other => uses_modify uses id other⟩
  rw [Module.content?, entry?_modify, Module.content?]
  split
  · rw [Option.map_map]
    exact congrArg (Option.map · (m.entry? other)) (funext content)
  · rfl

theorem resolveNames (m : Module) : Renamed m m.resolveNames :=
  foldl_preserves (fun _ _ start => start.trans (modify _ _ (fun _ => rfl) fun _ => rfl)) _ (refl m)

/-! ### Views -/

section Views

variable (renamed : Renamed m next)
include renamed

theorem literal? : next.literal? = m.literal? := by
  unfold Module.literal?
  rw [renamed.content?]

theorem global? : next.global? = m.global? := by
  unfold Module.global?
  rw [renamed.content?]

theorem function? : next.function? = m.function? := by
  unfold Module.function?
  rw [renamed.content?]

theorem block? : next.block? = m.block? := by
  unfold Module.block?
  rw [renamed.content?]

theorem instruction? : next.instruction? = m.instruction? := by
  unfold Module.instruction?
  rw [renamed.content?]

theorem parametersOf : next.parametersOf = m.parametersOf := by
  unfold Module.parametersOf
  rw [renamed.function?]

theorem blocksOf : next.blocksOf = m.blocksOf := by
  unfold Module.blocksOf
  rw [renamed.function?]

theorem entryOf? : next.entryOf? = m.entryOf? := by
  unfold Module.entryOf?
  rw [renamed.blocksOf]

theorem instructionsOf : next.instructionsOf = m.instructionsOf := by
  unfold Module.instructionsOf
  rw [renamed.block?]

theorem operandsOf : next.operandsOf = m.operandsOf := by
  unfold Module.operandsOf
  rw [renamed.instruction?]

theorem operand? : next.operand? = m.operand? := by
  unfold Module.operand?
  rw [renamed.operandsOf]

theorem opcode? : next.opcode? = m.opcode? := by
  unfold Module.opcode?
  rw [renamed.instruction?]

theorem hasOpcode : next.hasOpcode = m.hasOpcode := by
  unfold Module.hasOpcode
  rw [renamed.opcode?]

theorem blockOf? : next.blockOf? = m.blockOf? := by
  unfold Module.blockOf?
  rw [renamed.instruction?]

theorem position? : next.position? = m.position? := by
  unfold Module.position?
  rw [renamed.instructionsOf]

theorem bodyOf : next.bodyOf = m.bodyOf := by
  unfold Module.bodyOf
  rw [renamed.blocksOf, renamed.instructionsOf]

theorem owner? : next.owner? = m.owner? := by
  unfold Module.owner?
  rw [renamed.content?, renamed.block?]

theorem stepType : next.stepType = m.stepType := by
  funext position index type
  rw [Module.stepType.eq_def, Module.stepType.eq_def, renamed.literal?]

theorem walkType : next.walkType = m.walkType := by
  funext position indices type
  induction indices generalizing position type with
  | nil => rfl
  | cons index indices ih =>
    rw [Module.walkType, Module.walkType, renamed.stepType]
    exact congrArg (Option.bind _) (funext (ih (position + 1)))

theorem addressType : next.addressType = m.addressType := by
  unfold Module.addressType
  rw [renamed.walkType]

theorem resultType : next.resultType = m.resultType := by
  unfold Module.resultType
  rw [renamed.addressType]

theorem origin? : next.origin? = m.origin? := by
  unfold Module.origin?
  rw [renamed.instruction?]

theorem typeFrom : next.typeFrom = m.typeFrom := by
  unfold Module.typeFrom
  rw [renamed.content?, renamed.resultType]

theorem typeWithin? : next.typeWithin? = m.typeWithin? := by
  funext depth
  induction depth with
  | zero => rfl
  | succ depth ih =>
    funext id
    rw [Module.typeWithin?, Module.typeWithin?, ih, renamed.origin?, renamed.typeFrom]

theorem typeOf? : next.typeOf? = m.typeOf? := by
  unfold Module.typeOf?
  rw [renamed.typeWithin?, renamed.size]

theorem typeOf : next.typeOf = m.typeOf := by
  unfold Module.typeOf
  rw [renamed.typeOf?]

theorem producesValue : next.producesValue = m.producesValue := by
  unfold Module.producesValue
  rw [renamed.hasOpcode, renamed.typeOf]

theorem predecessors : next.predecessors = m.predecessors := by
  unfold Module.predecessors
  rw [renamed.uses, renamed.hasOpcode, renamed.blockOf?]

theorem successors : next.successors = m.successors := by
  unfold Module.successors
  rw [renamed.instructionsOf, renamed.instruction?, renamed.block?]

theorem scopeOf : next.scopeOf = m.scopeOf := by
  unfold Module.scopeOf
  rw [renamed.parametersOf, renamed.blocksOf, renamed.bodyOf, renamed.producesValue]

theorem cfg : Cfg.of next = Cfg.of m := by
  unfold Cfg.of
  rw [renamed.blocksOf, renamed.successors]

end Views

end Renamed

end Module

end SsaAmd64
