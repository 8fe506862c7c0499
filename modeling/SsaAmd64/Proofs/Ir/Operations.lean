/-
**Modules that can be built.**

A module is built from an empty one by operations, each of which may refuse. A cursor is no part of
the module, so an insertion is an operation at any insertion point, whichever cursor stood there.

* `Operation`: what can be done to a module;
* `Operation.apply`: the module that an operation leaves behind, or why it is refused;
* `Module.Built`: the modules that operations lead to, in any number and order;
* `Module.builtBy`: the module that certain operations build.
-/

import SsaAmd64.Ir.Cursor
import SsaAmd64.Ir.Naming
import SsaAmd64.Proofs.Outcomes

namespace SsaAmd64

/-- An operation on a module. -/
inductive Operation where
  | addLiteral (literal : Literal)
  | addGlobal (storage : Ty) (initialiser : Initialiser) (name : String)
  | addText (text : String) (terminated : Bool) (name : String)
  | setInitialiser (target : ValueId) (initialiser : Initialiser)
  | addFunction (signature : Signature) (name : String)
  | addBlock (function : ValueId) (place : Module.BlockPlace) (name : String)
  | insert (cursor : Cursor) (form : Form) (name : String)
  | replaceOperand (instruction : ValueId) (slot : Nat) (filling : Slot)
  | replaceUses (old new : ValueId)
  | addIncoming (phi value block : ValueId)
  | removeIncoming (phi : ValueId) (index : Nat)
  | remove (instruction : ValueId) (replacement : Option ValueId)
  | rename (id : ValueId) (name : String)
  | resolveNames

/-- The module that an operation leaves behind. -/
def Operation.apply (m : Module) : Operation → Except EditError Module
  | addLiteral literal => .ok (m.addLiteral literal).2
  | addGlobal storage initialiser name => (m.addGlobal storage initialiser name).map Prod.snd
  | addText text terminated name => (m.addText text terminated name).map Prod.snd
  | setInitialiser target initialiser => m.setInitialiser target initialiser
  | addFunction signature name => (m.addFunction signature name).map Prod.snd
  | addBlock function place name => (m.addBlock function place name).map Prod.snd
  | insert cursor form name => (cursor.insert m form name).map Insertion.outcome
  | replaceOperand instruction slot filling => m.replaceOperand instruction slot filling
  | replaceUses old new => m.replaceUses old new
  | addIncoming phi value block => m.addIncoming phi value block
  | removeIncoming phi index => m.removeIncoming phi index
  | remove instruction replacement => m.remove instruction replacement
  | rename id name => .ok (m.rename id name)
  | resolveNames => .ok m.resolveNames

/-- The modules that can be built from an empty one. -/
inductive Module.Built : Module → Prop
  | empty (name : String) : Built (Module.empty name)
  | step {m next : Module} (operation : Operation) :
    Built m → operation.apply m = .ok next → Built next

theorem Module.Built.run {m next : Module} (built : Built m) {operations : List Operation}
    (done : operations.foldlM Operation.apply m = .ok next) : Built next := by
  induction operations generalizing m with
  | nil => rwa [← Except.ok.inj done]
  | cons operation operations ih =>
    obtain ⟨between, first, rest⟩ := ok_of_bind done
    exact ih (.step operation built first) rest

/-- The module that operations build, or an empty one if one of them is refused. -/
def Module.builtBy (name : String) (operations : List Operation) : Module :=
  (operations.foldlM Operation.apply (Module.empty name)).toOption.getD (Module.empty name)

theorem Module.built_builtBy (name : String) (operations : List Operation) :
    Built (builtBy name operations) := by
  rw [builtBy]
  cases done : operations.foldlM Operation.apply (Module.empty name) with
  | error fault => exact .empty name
  | ok m => exact (Built.empty name).run done

end SsaAmd64
