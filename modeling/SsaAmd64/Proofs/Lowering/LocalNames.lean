/-
**Local names do not reach the code.**

Functions and globals get symbols from their names, and validation compares only those. What
parameters, blocks and instructions are called is written in comments and in reports, but no
decision depends on it; nor does one on what the module is called. A local name may be anything:
empty, shared with another value, the name of a function, or no name that an assembler accepts.

* `Module.LocallyRenamed`: modules that differ in such names only;
* `Module.LocallyRenamed.disguise`: local values can be renamed at will;
* `Module.LocallyRenamed.name_global`, `Module.LocallyRenamed.name_function`: what is called alike;
* `Module.Built.compile_locallyRenamed`: both modules are found valid, or at fault in the same
  place, and have the same code, or none for the same reason.
-/

import SsaAmd64.Proofs.Ir.Names
import SsaAmd64.Proofs.Lowering.Correctness
import SsaAmd64.Proofs.Lowering.Renaming

namespace SsaAmd64

/-- Whether a value belongs to a function. -/
def Content.isLocal : Content → Bool
  | .parameter _ | .block _ | .instruction _ => true
  | _ => false

/-- The names of other values do not matter to the names that values get. -/
theorem Scope.claimAll_congr {m next : Module} {ids : List ValueId}
    (stored : ∀ id ∈ ids, next.storedName id = m.storedName id) (scope : Scope) :
    claimAll next scope ids = claimAll m scope ids := by
  induction ids generalizing scope with
  | nil => rfl
  | cons id ids ih =>
    obtain ⟨here, others⟩ := List.forall_mem_cons.mp stored
    rw [claimAll, claimAll, here]
    exact congrArg (List.cons _) (ih others _)

namespace Module

variable {m next : Module} {id function global : ValueId} {roster : Roster}

/-- Whether a value of the module belongs to a function. -/
def isLocal (m : Module) (id : ValueId) : Bool :=
  (m.content? id).any Content.isLocal

theorem not_isLocal_of_roster (listed : m.roster? id = some roster) : m.isLocal id = false := by
  obtain ⟨content, found, kind⟩ := Option.bind_eq_some_iff.mp listed
  rw [isLocal, found]
  cases content <;> first | rfl | cases kind

/-- **Two modules that differ in local names only**: in what parameters, blocks and instructions are
called, and in what they are called themselves. -/
structure LocallyRenamed (m next : Module) : Prop where
  renamed : Renamed m next
  stored : ∀ id, m.isLocal id = false → next.storedName id = m.storedName id

/-! ### Changes of local names -/

/-- Gives names to values one after the other, and a name to the module. -/
def disguise (m : Module) (title : String) (names : List (ValueId × String)) : Module :=
  { names.foldl (fun m entry => m.rename entry.1 entry.2) m with name := title }

namespace LocallyRenamed

theorem refl (m : Module) : LocallyRenamed m m :=
  ⟨.refl m, fun _ _ => rfl⟩

theorem isLocal (same : LocallyRenamed m next) : next.isLocal = m.isLocal := by
  unfold Module.isLocal
  rw [same.renamed.content?]

theorem trans {first second third : Module} (one : LocallyRenamed first second)
    (later : LocallyRenamed second third) : LocallyRenamed first third := by
  refine ⟨one.renamed.trans later.renamed, fun id outside => ?_⟩
  rw [later.stored id (one.isLocal ▸ outside), one.stored id outside]

/-- One local value gets another name. -/
theorem rename (inside : m.isLocal id = true) (name : String) :
    LocallyRenamed m (m.rename id name) := by
  refine ⟨.modify m id (fun entry => ?_) (fun entry => ?_), fun other outside => ?_⟩
  · split <;> rfl
  · split <;> rfl
  · have different : other ≠ id := by
      rintro rfl
      exact Bool.false_ne_true (outside.symm.trans inside)
    rw [Module.rename, storedName, entry?_modify, if_neg different, storedName]

/-- **Any number of local values get other names**, and the module too. -/
theorem disguise (title : String) {names : List (ValueId × String)}
    (inside : ∀ entry ∈ names, m.isLocal entry.1 = true) :
    LocallyRenamed m (m.disguise title names) := by
  have through : LocallyRenamed m (names.foldl (fun m entry => m.rename entry.1 entry.2) m) := by
    induction names generalizing m with
    | nil => exact .refl m
    | cons entry names ih =>
      obtain ⟨here, others⟩ := List.forall_mem_cons.mp inside
      have one := rename here entry.2
      exact one.trans (ih (one.isLocal ▸ others))
  obtain ⟨renamed, stored⟩ := through
  exact ⟨⟨renamed.size, renamed.functions, renamed.globals, renamed.content?, renamed.uses⟩, stored⟩

/-! ### What is called alike -/

/-- Globals share a scope with one another only. -/
theorem name_global (same : LocallyRenamed m next) (built : Built m) (member : global ∈ m.globals) :
    (Printer.of next).name global = (Printer.of m).name global := by
  have stored : ∀ id ∈ m.globals, next.storedName id = m.storedName id :=
    fun id listed => same.stored id (not_isLocal_of_roster (built.enrolled.globals id listed))
  have claimed := Scope.claimAll_congr stored .empty
  have keys := Scope.map_fst_claimAll m .empty m.globals
  obtain ⟨entry, listed, key⟩ := List.mem_map.mp (keys.symm ▸ member :
    global ∈ (Scope.claimAll m .empty m.globals).map Prod.fst)
  obtain ⟨name, found⟩ : ∃ name, (Scope.claimAll m .empty m.globals).lookup global = some name := by
    refine Option.ne_none_iff_exists'.mp fun absent => ?_
    exact bne_iff_ne.mp (List.lookup_eq_none_iff.mp absent entry listed) key.symm
  unfold Printer.name NameTable.get?
  show ((NameTable.of next).names.lookup global).getD _ =
    ((NameTable.of m).names.lookup global).getD _
  unfold NameTable.of
  rw [List.lookup_append, List.lookup_append, same.renamed.globals, claimed, found]
  rfl

/-- Functions keep the names that they are given. -/
theorem name_of_function (distinct : ((NameTable.of m).names.map Prod.fst).Nodup)
    (member : function ∈ m.functions) : (Printer.of m).name function = m.storedName function := by
  show ((NameTable.of m).names.lookup function).getD _ = _
  rw [lookup_of_mem distinct (mem_names_of_function member), Option.getD_some]

theorem stored_function (same : LocallyRenamed m next) (built : Built m) :
    ∀ function ∈ m.functions, next.storedName function = m.storedName function :=
  fun function member =>
    same.stored function (not_isLocal_of_roster (built.enrolled.functions function member))

theorem name_function (same : LocallyRenamed m next) (built : Built m)
    (member : function ∈ m.functions) :
    (Printer.of next).name function = (Printer.of m).name function := by
  have distinct : ((NameTable.of next).names.map Prod.fst).Nodup := by
    rw [map_fst_names, same.renamed.globals, same.renamed.functions, same.renamed.scopeOf,
      ← map_fst_names]
    exact built.distinct_names
  rw [name_of_function distinct (same.renamed.functions ▸ member),
    name_of_function built.distinct_names member, same.stored_function built function member]

/-- Without comments, the same code is made from both. -/
theorem exchangeable (same : LocallyRenamed m next) (built : Built m) :
    (Printer.of m).Exchangeable (Printer.of next) false :=
  ⟨same.renamed, fun _ => same.name_function built, fun _ => same.name_global built, nofun⟩

end LocallyRenamed

/-- **Local names do not reach the code.** Of two modules that differ in local names only, both are
valid, or the same is found at fault with the same value; and on every platform both have the same
lines of code, or neither has any and the same failure is reported of the same values. -/
theorem Built.compile_locallyRenamed (built : Built m) (same : LocallyRenamed m next) :
    next.validate = m.validate ∧
      ∀ platform, next.compile ⟨platform, false⟩ = m.compile ⟨platform, false⟩ := by
  have validate : next.validate = m.validate :=
    same.renamed.validate (fun _ => same.name_global built) (same.stored_function built)
  refine ⟨validate, fun platform => ?_⟩
  rw [compile, compile, validate, assemble_exchange (same.exchangeable built)]

/-- Names for the values of a function: missing, shared, the name of the function, and none that an
assembler would accept. -/
def masks : List (ValueId × String) :=
  [(⟨1⟩, ""), (⟨2⟩, "gcd"), (⟨3⟩, "gcd"), (⟨4⟩, "jmp .L0\n"), (⟨7⟩, ".L1"), (⟨9⟩, ".L1")]

/-- A loop under other names, which can be read in its text and not in its code. -/
theorem compile_locallyRenamed_gcd : (gcd.disguise "masked" masks).text ≠ gcd.text ∧
    (gcd.disguise "masked" masks).validate = .ok () ∧
    ∃ program, gcd.compile ⟨.linux, false⟩ = .ok program ∧
      (gcd.disguise "masked" masks).compile ⟨.linux, false⟩ = .ok program := by
  have made : (gcd.assemble ⟨.linux, false⟩).toOption.any (fun _ => true) = true := by
    decide +kernel
  obtain ⟨program, _, compiled, _⟩ := Lowering.exists_program validate_gcd made
  have same : LocallyRenamed gcd (gcd.disguise "masked" masks) :=
    .disguise "masked" (by decide +kernel)
  obtain ⟨valid, alike⟩ := Built.compile_locallyRenamed (built_builtBy "gcd" gcdSteps) same
  exact ⟨by decide +kernel, valid.trans validate_gcd, program, compiled,
    (alike .linux).trans compiled⟩

end Module

end SsaAmd64
