/-
**Unique names.**

The search for a name that is not in use ends, since it would need more names than there are in use
to go on. Of the names of a module, those in one scope are not empty and differ from one another,
and a given name is kept where none before it has become the same. Which instructions are named
depends on their types, so there are no names where the type of one is made from itself; a module
that is accepted has names.

* `Scope.Settles`: the search, from one number to the next while the name is in use;
* `Scope.Tracked`: a scope in which each given name with a number has been seen in use;
* `Scope.Tracked.lookup_claimAll`: a given name that is new in its scope is kept;
* `NameTable.of?_eq_some_iff`, `NameTable.of?_eq_none_iff`: the modules whose values can be named;
* `NameTable.Resolves`: what a table says about the names of a scope;
* `Module.Built.names_unique`: the table of a module resolves all of its scopes;
* `Module.nameless_coil`: a module that has none.
-/

import SsaAmd64.Proofs.Ir.Names
import SsaAmd64.Proofs.Validation.Settled

namespace SsaAmd64

namespace Scope

variable {scope : Scope} {name : String} {first count : Nat} {m : Module} {id : ValueId}

/-! ### The search for a number -/

/-- **The search for a number**: from a number on, one after the other is tried until its name is not
in use. -/
inductive Settles (scope : Scope) (name : String) : (first count : Nat) → Prop
  | free {count : Nat} : numbered name count ∉ scope.used → Settles scope name count count
  | taken {first count : Nat} : numbered name first ∈ scope.used →
      Settles scope name (first + 1) count → Settles scope name first count

theorem settles_of_least (free : numbered name count ∉ scope.used) (start : first ≤ count)
    (taken : ∀ earlier, first ≤ earlier → earlier < count → numbered name earlier ∈ scope.used) :
    scope.Settles name first count := by
  induction start using Nat.decreasingInduction with
  | self => exact .free free
  | of_succ number below ih =>
    refine .taken (taken number (Nat.le_refl _) below) (ih fun earlier later => ?_)
    exact taken earlier (Nat.le_of_succ_le later)

/-- **The search ends**, after no more steps than there are names in use. -/
theorem settles_freeCount (scope : Scope) (name : String) :
    scope.Settles name (scope.firstCount name) (scope.freeCount name) ∧
      scope.freeCount name ≤ scope.firstCount name + scope.used.length := by
  obtain ⟨start, free⟩ := freeCount_spec scope name
  obtain ⟨_, range, least⟩ := List.find?_range'_eq_some.mp (find?_freeCount scope name)
  refine ⟨settles_of_least free start fun earlier above below => ?_, ?_⟩
  · simpa using least earlier above below
  · have bound := (List.mem_range'_1.mp range).2
    omega

/-! ### Names that are kept -/

/-- **A scope in which each given name with a number has been seen in use.** -/
def Tracked (scope : Scope) : Prop :=
  ∀ name ≠ "", name ∉ scope.used → scope.counts.lookup name = none

theorem tracked_empty : empty.Tracked :=
  fun _ _ _ => rfl

theorem Tracked.claim_eq (tracked : scope.Tracked) (nonempty : name ≠ "")
    (new : name ∉ scope.used) :
    scope.claim name = (name, ⟨(name, 1) :: scope.counts, name :: scope.used⟩) :=
  claim_of_new nonempty new (tracked name nonempty new)

/-- A name that is asked for is in use afterwards, be it the one handed out or one in its way. -/
theorem Tracked.claim (tracked : scope.Tracked) (name : String) : (scope.claim name).2.Tracked := by
  intro other nonempty fresh
  have unused : other ∉ scope.used := fun member => fresh (List.mem_cons_of_mem _ member)
  have different : other ≠ name := by
    rintro rfl
    rw [tracked.claim_eq nonempty unused] at fresh
    exact fresh List.mem_cons_self
  show ((name, _) :: scope.counts).lookup other = none
  rw [List.lookup_cons, beq_false_of_ne different]
  exact tracked other nonempty unused

/-- **A given name that is new in its scope is kept.** -/
theorem Tracked.lookup_claimAll (tracked : scope.Tracked) {before after : List ValueId}
    (distinct : (before ++ id :: after).Nodup) (nonempty : m.storedName id ≠ "")
    (unused : m.storedName id ∉ scope.used)
    (new : ∀ earlier ∈ before, (claimAll m scope (before ++ id :: after)).lookup earlier ≠
      some (m.storedName id)) :
    (claimAll m scope (before ++ id :: after)).lookup id = some (m.storedName id) := by
  induction before generalizing scope with
  | nil =>
    rw [List.nil_append, claimAll, tracked.claim_eq nonempty unused, List.lookup_cons,
      beq_self_eq_true]
  | cons other before ih =>
    obtain ⟨absent, distinct'⟩ := List.nodup_cons.mp distinct
    obtain ⟨here, others⟩ := List.forall_mem_cons.mp new
    have behind {later : ValueId} (member : later ∈ before ++ id :: after) :
        (claimAll m scope (other :: before ++ id :: after)).lookup later =
          (claimAll m (scope.claim (m.storedName other)).2 (before ++ id :: after)).lookup later := by
      have different : later ≠ other := fun same => absent (same ▸ member)
      rw [List.cons_append, claimAll, List.lookup_cons, beq_false_of_ne different]
    have resolved : (claimAll m scope (other :: before ++ id :: after)).lookup other =
        some (scope.claim (m.storedName other)).1 := by
      rw [List.cons_append, claimAll, List.lookup_cons, beq_self_eq_true]
    rw [behind (List.mem_append_right _ List.mem_cons_self)]
    refine ih (tracked.claim _) distinct' ?_ fun earlier member => ?_
    · intro used
      rcases List.mem_cons.mp used with same | used
      · exact here (resolved.trans (congrArg some same.symm))
      · exact unused used
    · rw [← behind (List.mem_append_left _ member)]
      exact others earlier member

end Scope

/-! ### Where names are found -/

section Option

variable {α β : Type} {elements : List α} {element : α}

theorem mapM_of_forall {step : α → Option β} {result : α → β}
    (all : ∀ element ∈ elements, step element = some (result element)) :
    elements.mapM step = some (elements.map result) := by
  induction elements with
  | nil => rfl
  | cons first others ih =>
    obtain ⟨here, later⟩ := List.forall_mem_cons.mp all
    rw [List.mapM_cons, here, ih later]
    rfl

theorem exists_of_mapM {step : α → Option β} {results : List β}
    (done : elements.mapM step = some results) (member : element ∈ elements) :
    ∃ result, step element = some result := by
  induction elements generalizing results with
  | nil => cases member
  | cons first others ih =>
    rw [List.mapM_cons] at done
    obtain ⟨result, here, done⟩ := Option.bind_eq_some_iff.mp done
    obtain ⟨_, later, _⟩ := Option.bind_eq_some_iff.mp done
    rcases List.mem_cons.mp member with rfl | member
    · exact ⟨result, here⟩
    · exact ih later member

theorem filterAuxM_of_forall {step : α → Option Bool} {test : α → Bool} (chosen : List α)
    (all : ∀ element ∈ elements, step element = some (test element)) :
    elements.filterAuxM step chosen = some ((elements.filter test).reverse ++ chosen) := by
  induction elements generalizing chosen with
  | nil => rfl
  | cons first others ih =>
    obtain ⟨here, later⟩ := List.forall_mem_cons.mp all
    rw [List.filterAuxM, here, Option.bind_eq_bind, Option.bind_some, ih _ later]
    cases passed : test first <;> simp [passed]

theorem exists_of_filterAuxM {step : α → Option Bool} {chosen results : List α}
    (done : elements.filterAuxM step chosen = some results) (member : element ∈ elements) :
    ∃ passed, step element = some passed := by
  induction elements generalizing chosen with
  | nil => cases member
  | cons first others ih =>
    obtain ⟨passed, here, done⟩ := Option.bind_eq_some_iff.mp done
    rcases List.mem_cons.mp member with rfl | member
    · exact ⟨passed, here⟩
    · exact ih done member

end Option

namespace Module

variable {m : Module} {id function : ValueId}

/-- What yields no result has a type. -/
theorem producesValue?_eq_none_iff : m.producesValue? id = none ↔ m.typeOf? id = none := by
  rw [producesValue?]
  split
  case isTrue => exact Option.map_eq_none_iff
  case isFalse other =>
    refine ⟨nofun, fun none => ?_⟩
    obtain ⟨origin, leads, _⟩ := (typeOf?_eq_none_iff.mp none).exists_origin
    obtain ⟨held, found, rest⟩ := Option.bind_eq_some_iff.mp leads
    rw [hasOpcode, opcode?, found] at other
    rw [Instruction.origin?] at rest
    cases kind : held.opcode <;> simp_all [Opcode.isValue, Opcode.isDerived]

theorem producesValue?_eq_some (typed : (m.typeOf? id).isSome) :
    m.producesValue? id = some (m.producesValue id) := by
  obtain ⟨type, found⟩ := Option.isSome_iff_exists.mp typed
  rw [producesValue?, producesValue, typeOf, found]
  cases m.hasOpcode Opcode.isValue id <;> rfl

/-- Whether the types of all instructions of a function are found. -/
def Typed (m : Module) (function : ValueId) : Prop :=
  ∀ id ∈ m.bodyOf function, (m.typeOf? id).isSome

theorem scopeOf?_eq_some (typed : m.Typed function) :
    m.scopeOf? function = some (m.scopeOf function) := by
  have produced : (m.bodyOf function).filterM m.producesValue? =
      some ((m.bodyOf function).filter m.producesValue) := by
    rw [List.filterM, filterAuxM_of_forall [] fun id member =>
      producesValue?_eq_some (typed id member)]
    simp
  rw [scopeOf?, produced]
  rfl

theorem typed_of_scopeOf? {scope : List ValueId} (found : m.scopeOf? function = some scope) :
    m.Typed function := by
  intro id member
  obtain ⟨produced, chosen, _⟩ := Option.bind_eq_some_iff.mp found
  obtain ⟨_, filtered, _⟩ := Option.bind_eq_some_iff.mp chosen
  obtain ⟨passed, known⟩ := exists_of_filterAuxM filtered member
  rw [Option.isSome_iff_ne_none, ne_eq, ← producesValue?_eq_none_iff, known]
  exact nofun

end Module

namespace NameTable

variable {m : Module} {table : NameTable}

theorem of?_of_typed (typed : ∀ function ∈ m.functions, m.Typed function) :
    of? m = some (of m) := by
  have inner : m.functions.mapM (fun function => do
      let scope ← m.scopeOf? function
      return (function, m.storedName function) :: Scope.claimAll m .empty scope) =
      some (m.functions.map fun function =>
        (function, m.storedName function) :: Scope.claimAll m .empty (m.scopeOf function)) := by
    refine mapM_of_forall fun function member => ?_
    rw [Module.scopeOf?_eq_some (typed function member)]
    rfl
  rw [of?, inner, of, List.flatMap_def]
  rfl

/-- **Values are named where the types of all instructions are found.** -/
theorem of?_eq_some_iff :
    of? m = some table ↔ (∀ function ∈ m.functions, m.Typed function) ∧ of m = table := by
  constructor
  · intro found
    have typed : ∀ function ∈ m.functions, m.Typed function := by
      intro function member
      obtain ⟨inner, named, _⟩ := Option.bind_eq_some_iff.mp found
      obtain ⟨_, named⟩ := exists_of_mapM named member
      obtain ⟨scope, known, _⟩ := Option.bind_eq_some_iff.mp named
      exact Module.typed_of_scopeOf? known
    exact ⟨typed, Option.some.inj ((of?_of_typed typed).symm.trans found)⟩
  · rintro ⟨typed, rfl⟩
    exact of?_of_typed typed

/-- **They are not where the type of an instruction is made from itself.** -/
theorem of?_eq_none_iff :
    of? m = none ↔ ∃ function ∈ m.functions, ∃ id ∈ m.bodyOf function, m.Circles id := by
  simp only [← Module.typeOf?_eq_none_iff]
  constructor
  · intro none
    by_contra other
    push Not at other
    have typed : ∀ function ∈ m.functions, m.Typed function := fun function member id listed =>
      Option.isSome_iff_ne_none.mpr (other function member id listed)
    rw [of?_of_typed typed] at none
    cases none
  · rintro ⟨function, member, id, listed, far⟩
    cases found : of? m with
    | none => rfl
    | some table =>
      have known := (of?_eq_some_iff.mp found).1 function member id listed
      rw [far] at known
      cases known

/-- **The values of an accepted module are named.** -/
theorem of?_of_validate (built : m.Built) (valid : m.validate = .ok ()) :
    of? m = some (of m) := by
  refine of?_of_typed fun function member id listed => ?_
  have accepted : m.Accepted function := ⟨built, valid, member⟩
  rw [accepted.typeOf?_eq_some listed]
  rfl

end NameTable

/-! ### The names of a module -/

/-- The lists of values that share a scope: the globals, and the parameters, blocks and values of each
function. -/
def Module.scopes (m : Module) : List (List ValueId) :=
  m.globals :: m.functions.map m.scopeOf

/-- **What a table says about values that share a scope**: each has a name, different ones have
different names, and a given name is kept where it is new. -/
structure NameTable.Resolves (table : NameTable) (m : Module) (ids : List ValueId) : Prop where
  named : ∀ id ∈ ids, ∃ name, table.get? id = some name ∧ name ≠ ""
  distinct : ∀ first ∈ ids, ∀ second ∈ ids, first ≠ second → table.get? first ≠ table.get? second
  kept : ∀ before id after, ids = before ++ id :: after → m.storedName id ≠ "" →
    (∀ earlier ∈ before, table.get? earlier ≠ some (m.storedName id)) →
    table.get? id = some (m.storedName id)

namespace Module

variable {m : Module} {ids : List ValueId}

/-- The table holds what each scope hands out. -/
theorem claimAll_subset_names (member : ids ∈ m.scopes) :
    Scope.claimAll m .empty ids ⊆ (NameTable.of m).names := by
  intro entry handed
  rcases List.mem_cons.mp member with rfl | inner
  · exact List.mem_append_left _ handed
  · obtain ⟨function, own, rfl⟩ := List.mem_map.mp inner
    exact List.mem_append_right _ (List.mem_flatMap.mpr ⟨function, own, List.mem_cons_of_mem _ handed⟩)

theorem Built.nodup_scope (built : Built m) (member : ids ∈ m.scopes) : ids.Nodup := by
  rcases List.mem_cons.mp member with rfl | inner
  · exact built.enrolled.distinctGlobals
  · obtain ⟨function, _, rfl⟩ := List.mem_map.mp inner
    exact built.linked.nodup_scopeOf function

/-- A value has the name that its scope has handed out for it. -/
theorem Built.get?_eq_lookup (built : Built m) (member : ids ∈ m.scopes) {id : ValueId}
    (inside : id ∈ ids) :
    (NameTable.of m).get? id = (Scope.claimAll m .empty ids).lookup id := by
  have keys := Scope.map_fst_claimAll m .empty ids
  obtain ⟨⟨_, name⟩, handed, rfl⟩ := List.mem_map.mp (keys.symm ▸ inside)
  have table : (NameTable.of m).get? _ = some name :=
    lookup_of_mem built.distinct_names (claimAll_subset_names member handed)
  have scope := lookup_of_mem (keys.symm ▸ built.nodup_scope member) handed
  rw [table, scope]

theorem Built.resolves (built : Built m) (member : ids ∈ m.scopes) :
    (NameTable.of m).Resolves m ids := by
  have handed := Scope.Handed.of_claimAll Scope.sound_empty m ids
  have keys := Scope.map_fst_claimAll m .empty ids
  have nodup := built.nodup_scope member
  have entry {id : ValueId} (inside : id ∈ ids) : ∃ name,
      (NameTable.of m).get? id = some name ∧ (id, name) ∈ Scope.claimAll m .empty ids := by
    obtain ⟨⟨_, name⟩, listed, rfl⟩ := List.mem_map.mp (keys.symm ▸ inside)
    refine ⟨name, ?_, listed⟩
    rw [built.get?_eq_lookup member inside]
    exact lookup_of_mem (keys.symm ▸ nodup) listed
  constructor
  case named =>
    intro id inside
    obtain ⟨name, known, listed⟩ := entry inside
    exact ⟨name, known, handed.nonempty name (List.mem_map_of_mem listed)⟩
  case distinct =>
    intro first one second other different same
    obtain ⟨name, known, listed⟩ := entry one
    obtain ⟨name', known', listed'⟩ := entry other
    obtain rfl : name = name' := Option.some.inj (known.symm.trans (same.trans known'))
    exact different (congrArg Prod.fst (List.inj_on_of_nodup_map handed.distinct listed listed' rfl))
  case kept =>
    rintro before id after rfl nonempty new
    have inside : id ∈ before ++ id :: after := List.mem_append_right _ List.mem_cons_self
    rw [built.get?_eq_lookup member inside]
    refine Scope.tracked_empty.lookup_claimAll nodup nonempty List.not_mem_nil fun earlier listed => ?_
    rw [← built.get?_eq_lookup member (List.mem_append_left _ listed)]
    exact new earlier listed

/-- **In every module that can be built, names are found and differ**, unless the type of an
instruction is made from itself, which it is in no accepted module. Each search for a name ends, and
in each scope of the module every value has a name of its own, which is the given one where that is
new. -/
theorem Built.names_unique (built : Built m) :
    (∀ (scope : Scope) name, scope.Settles name (scope.firstCount name) (scope.freeCount name) ∧
      scope.freeCount name ≤ scope.firstCount name + scope.used.length) ∧
    (NameTable.of? m = none ↔
      ∃ function ∈ m.functions, ∃ id ∈ m.bodyOf function, m.Circles id) ∧
    (m.validate = .ok () → (NameTable.of? m).isSome) ∧
    ∀ table, NameTable.of? m = some table → ∀ ids ∈ m.scopes, table.Resolves m ids := by
  refine ⟨Scope.settles_freeCount, NameTable.of?_eq_none_iff, fun valid => ?_,
    fun table found ids member => ?_⟩
  · rw [NameTable.of?_of_validate built valid]
    rfl
  · obtain ⟨_, rfl⟩ := NameTable.of?_eq_some_iff.mp found
    exact built.resolves member

/-- Names that read like numbered ones, before and behind the values that are numbered, and a block
whose name comes once more. -/
def suffixedSteps : List Operation :=
  [.addGlobal (.int 8) .zero "x", .addGlobal (.int 8) .zero "x", .addGlobal (.int 8) .zero "x1",
    .addFunction ⟨[.int 32, .int 32, .int 32, .int 32], .void, false⟩ "f", .rename ⟨4⟩ "2",
    .rename ⟨6⟩ "y1", .rename ⟨7⟩ "y", .addBlock ⟨3⟩ .finish "y", .addBlock ⟨3⟩ .finish "",
    .insert ⟨some (.finish ⟨8⟩)⟩ (.alloc (.int 8)) "1"]

def suffixed : Module := builtBy "suffixed" suffixedSteps

/-- A given name that another has been resolved to is not kept, and every other is. -/
theorem names_unique_suffixed : ∃ table, NameTable.of? suffixed = some table ∧
    suffixed.scopes = [[⟨0⟩, ⟨1⟩, ⟨2⟩], [⟨4⟩, ⟨5⟩, ⟨6⟩, ⟨7⟩, ⟨8⟩, ⟨9⟩, ⟨10⟩]] ∧
      table.names.map Prod.snd =
        ["x", "x1", "x11", "f", "2", "1", "y1", "y", "y2", "3", "11"] ∧
      ∀ ids ∈ suffixed.scopes, table.Resolves suffixed ids := by
  have unique := Built.names_unique (built_builtBy "suffixed" suffixedSteps)
  have made : ((NameTable.of? suffixed).any fun table => table.names.map Prod.snd =
      ["x", "x1", "x11", "f", "2", "1", "y1", "y", "y2", "3", "11"]) = true := by decide +kernel
  obtain ⟨table, found, named⟩ := (Option.any_eq_true _ _).mp made
  exact ⟨table, found, by decide +kernel, of_decide_eq_true named, unique.2.2.2 table found⟩

/-- An instruction that loads from where its own result points. -/
def coilSteps : List Operation :=
  [.addFunction ⟨[.pointer (.int 32)], .void, false⟩ "f", .addBlock ⟨0⟩ .finish "entry",
    .insert ⟨some (.finish ⟨2⟩)⟩ (.load ⟨1⟩) "s", .replaceOperand ⟨3⟩ 0 (some ⟨3⟩)]

def coil : Module := builtBy "coil" coilSteps

/-- **A module whose values cannot be named**: the look for the type of an instruction has no end,
however far it goes. -/
theorem nameless_coil : Built coil ∧ coil.bodyOf ⟨0⟩ = [⟨3⟩] ∧ coil.origin? ⟨3⟩ = some ⟨3⟩ ∧
    (∀ depth, coil.typeWithin? depth ⟨3⟩ = none) ∧ NameTable.of? coil = none := by
  have leads : coil.origin? ⟨3⟩ = some ⟨3⟩ := by decide +kernel
  have circles : coil.Circles ⟨3⟩ := ⟨⟨3⟩, .refl, .single leads⟩
  exact ⟨built_builtBy "coil" coilSteps, by decide +kernel, leads, circles.typeWithin?_eq_none,
    by decide +kernel⟩

end Module

end SsaAmd64
