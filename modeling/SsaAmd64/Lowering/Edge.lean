/-
**Branches and phis.**

Phis make no code where they stand. On every edge into their block, the incoming values are copied
into their home slots before the jump, as one parallel assignment. A conditional branch whose true
target has phis jumps to a label of its own for the copies of that edge.

* `Lowering.phiCopies`: what an edge assigns;
* `Lowering.assignPhis`: the code of the assignment, by way of the stack where one phi is read by
  the copy into another;
* `Lowering.branch`, `Lowering.branchIf`: the code of the two branches.
-/

import SsaAmd64.Lowering.Transfer

namespace SsaAmd64

namespace Lowering

open Asm

/-- What an edge assigns: for each phi of the target the values that come in from the source. Phis
need not lead their block; all of them take their values on entry. -/
def phiCopies (m : Module) (source target : ValueId) : List (ValueId × ValueId) :=
  (m.instructionsOf target).flatMap fun phi =>
    match m.instruction? phi with
    | some instruction => instruction.incoming.filterMap fun pair =>
        match pair with
        | (some value, some block) => if block = source then some (phi, value) else none
        | _ => none
    | none => []

/-- Whether one phi is read by the copy into a phi of the same edge, so that copying in turn may
overwrite it too early. -/
def isHazardous (copies : List (ValueId × ValueId)) : Bool :=
  copies.any fun read => copies.any fun written => written.1 = read.2

/-- A copy of an edge, with the size of its phi and an offset on the stack. -/
structure StagedCopy where
  phi : ValueId
  value : ValueId
  size : Nat
  offset : Nat

/-- Lays copies out on the stack from an offset on, in multiples of eight bytes, and gives the end
of the last. -/
def stage (offset : Nat) : List ((ValueId × ValueId) × Nat) → List StagedCopy × Nat
  | [] => ([], offset)
  | ((phi, value), size) :: copies =>
    let (staged, finish) := stage (offset + roundUp size 8) copies
    (⟨phi, value, size, offset⟩ :: staged, finish)

/-- Copies that do not disturb one another, straight into the home slots. -/
def copyDirectly (lowering : Lowering) (copies : List ((ValueId × ValueId) × Nat)) :
    Except Failure (List Line) := do
  let parts ← copies.mapM fun ((phi, value), size) => do
    lowering.copyTo value .rbp (← lowering.slot phi) size
  return parts.flatten

/-- Copies by way of the stack: all values are read before the first home slot is written. -/
def copyStaged (lowering : Lowering) (copies : List ((ValueId × ValueId) × Nat)) :
    Except Failure (List Line) := do
  let (staged, finish) := stage 0 copies
  let reserved := signed64 (roundUp finish 16)
  let reads ← staged.mapM fun copy =>
    lowering.copyTo copy.value .rsp (signed64 copy.offset) copy.size
  let writes ← staged.reverse.mapM fun copy => do
    return copyMemory .rsp (signed64 copy.offset) .rbp (← lowering.slot copy.phi) copy.size
  return .arithmetic .sub .quad (.immediate reserved) (.full .rsp) ::
    (reads.flatten ++ writes.flatten ++
      [.arithmetic .add .quad (.immediate reserved) (.full .rsp)])

/-- The code that assigns the phis of a target on the edge from a source. -/
def assignPhis (lowering : Lowering) (source target : ValueId) : Except Failure (List Line) := do
  let copies := phiCopies lowering.subject source target
  let sized ← copies.mapM fun copy => do return (copy, ← lowering.sizeOf copy.1)
  if isHazardous copies then lowering.copyStaged sized else lowering.copyDirectly sized

/-- The target in a slot of a branch. -/
def target (lowering : Lowering) (instruction : ValueId) (slot : Nat) : Except Failure ValueId :=
  match lowering.subject.operand? instruction slot with
  | some value =>
    if (lowering.subject.block? value).isSome then .ok value
    else unsupported (.missingTarget slot instruction)
  | none => unsupported (.missingTarget slot instruction)

/-- The code of an edge: the assignment of the phis and the jump. -/
def edge (lowering : Lowering) (source target : ValueId) : Except Failure (List Line) := do
  return (← lowering.assignPhis source target) ++ [.jump (lowering.label target)]

/-- The code of a `br` at the end of a block. -/
def branch (lowering : Lowering) (block instruction : ValueId) : Except Failure (List Line) := do
  lowering.edge block (← lowering.target instruction 0)

/-- The code of a `condbr` at the end of a block, where `next` is the number of the next label, and
the number of the next label after it. -/
def branchIf (lowering : Lowering) (next : Nat) (block instruction : ValueId) :
    Except Failure (List Line × Nat) := do
  match lowering.subject.operand? instruction 0 with
  | none => unsupported (.missingCondition instruction)
  | some condition =>
    let ifTrue ← lowering.target instruction 1
    let ifFalse ← lowering.target instruction 2
    let test := (← lowering.loadInt condition .rax false) ++
      [.arithmetic .test .quad (.full .rax) (.full .rax)]
    let falseEdge ← lowering.edge block ifFalse
    if (phiCopies lowering.subject block ifTrue).isEmpty then
      return (test ++ .jumpIf .notEqual (lowering.label ifTrue) :: falseEdge, next)
    else
      let trueLabel := lowering.options.platform.label next
      let trueEdge ← lowering.edge block ifTrue
      return (test ++ .jumpIf .notEqual trueLabel :: falseEdge ++ .label trueLabel :: trueEdge,
        next + 1)

end Lowering

end SsaAmd64
