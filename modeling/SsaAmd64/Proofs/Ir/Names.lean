/-
**Resolved names.**

The names that a scope hands out are not empty and differ from one another: among more numbers than
there are names in use, one is free. So a scope that is asked for its own names hands out the same
again. Every value has its name from one scope, so a module with resolved names keeps all of them.

* `Scope.Sound`: a scope that tries no number zero for a name that it has handed out;
* `Scope.Handed.of_claimAll`: the names of a scope differ from one another;
* `Scope.claimAll_eq`: names that differ from one another are kept;
* `Module.Built.distinct_names`: every value is named once;
* `Module.Built.name_resolveNames`: resolving names does not change the name of any value;
* `Module.Built.resolveNames_resolveNames`: and changes nothing the second time.
-/

import SsaAmd64.Ir.Printer
import SsaAmd64.Proofs.Ir.Renaming
import SsaAmd64.Proofs.Ir.Rosters
import SsaAmd64.Proofs.Lowering.Slots

namespace SsaAmd64

/-! ### One scope -/

namespace Scope

variable {scope : Scope} {name : String} {m next : Module} {ids : List ValueId}

theorem numbered_injective (name : String) : (numbered name).Injective := by
  have longer : ∀ count : Nat, name ++ toString count ≠ name := by
    intro count same
    have lengths := congrArg String.length same
    have digits := Nat.length_repr_pos (n := count)
    rw [String.length_append, Nat.toString_eq_repr] at lengths
    omega
  intro first second same
  rw [numbered, numbered] at same
  split at same <;> split at same
  case isTrue.isTrue zero zero' => rw [zero, zero']
  case isTrue.isFalse => exact absurd same.symm (longer second)
  case isFalse.isTrue => exact absurd same (longer first)
  case isFalse.isFalse =>
    have digits := congrArg (fun text => Nat.ofDigitChars 10 text.toList 0)
      ((String.append_right_inj _).mp same)
    simpa [Nat.toString_eq_repr, Nat.toList_repr, Nat.ofDigitChars_toDigits] using digits

theorem numbered_ne_empty {count : Nat} (some' : name ≠ "" ∨ 0 < count) : numbered name count ≠ "" := by
  rw [numbered]
  split
  · exact some'.resolve_right (by omega)
  · intro empty
    exact Nat.repr_ne_empty (String.append_eq_empty_iff.mp empty).2

/-- Some number from the first to try on makes a name that is not in use, and the least is taken. -/
theorem find?_freeCount (scope : Scope) (name : String) :
    ((List.range' (scope.firstCount name) (scope.used.length + 1)).find? fun count =>
      !scope.used.contains (numbered name count)) = some (scope.freeCount name) := by
  rw [freeCount]
  generalize scope.firstCount name = first
  cases found : (List.range' first (scope.used.length + 1)).find? fun count =>
      !scope.used.contains (numbered name count) with
  | some count => rw [Option.getD_some]
  | none =>
    -- all of the numbers tried would make names in use, which are too few
    have used : (List.range' first (scope.used.length + 1)).map (numbered name) ⊆ scope.used := by
      intro taken member
      obtain ⟨count, tried, rfl⟩ := List.mem_map.mp member
      simpa using List.find?_eq_none.mp found count tried
    have distinct : ((List.range' first (scope.used.length + 1)).map (numbered name)).Nodup :=
      List.Nodup.map (numbered_injective name) List.nodup_range'
    have few := (List.subperm_of_subset distinct used).length_le
    rw [List.length_map, List.length_range'] at few
    omega

theorem freeCount_spec (scope : Scope) (name : String) :
    scope.firstCount name ≤ scope.freeCount name ∧
      numbered name (scope.freeCount name) ∉ scope.used := by
  have found := find?_freeCount scope name
  have range := List.mem_range'_1.mp (List.mem_of_find?_eq_some found)
  have free := List.find?_some found
  exact ⟨range.1, by simpa using free⟩

theorem claim_not_mem (scope : Scope) (name : String) : (scope.claim name).1 ∉ scope.used :=
  (freeCount_spec scope name).2

/-- **A scope whose next numbers are never zero.** -/
def Sound (scope : Scope) : Prop :=
  ∀ entry ∈ scope.counts, 0 < entry.2

theorem Sound.claim (sound : scope.Sound) (name : String) : (scope.claim name).2.Sound :=
  List.forall_mem_cons.mpr ⟨Nat.succ_pos _, sound⟩

theorem Sound.claim_ne_empty (sound : scope.Sound) (name : String) : (scope.claim name).1 ≠ "" := by
  refine numbered_ne_empty ?_
  by_cases empty : name = ""
  · right
    subst empty
    refine Nat.lt_of_lt_of_le ?_ (freeCount_spec scope "").1
    rw [firstCount]
    cases found : scope.counts.lookup "" with
    | none => decide
    | some count =>
      obtain ⟨before, after, counts, _⟩ := List.lookup_eq_some_iff.mp found
      exact sound ("", count) (counts ▸ List.mem_append_right _ List.mem_cons_self)
  · exact .inl empty

/-- **Names handed out by a scope**: not empty, different from one another and from those in use. -/
structure Handed (scope : Scope) (names : List String) : Prop where
  nonempty : ∀ name ∈ names, name ≠ ""
  distinct : names.Nodup
  new : names.Disjoint scope.used

theorem Handed.of_claimAll (sound : scope.Sound) (m : Module) (ids : List ValueId) :
    scope.Handed ((claimAll m scope ids).map Prod.snd) := by
  induction ids generalizing scope with
  | nil => exact ⟨nofun, .nil, List.disjoint_nil_left _⟩
  | cons id ids ih =>
    have later := ih (sound.claim (m.storedName id))
    refine ⟨List.forall_mem_cons.mpr ⟨sound.claim_ne_empty _, later.nonempty⟩,
      List.nodup_cons.mpr ⟨fun member => ?_, later.distinct⟩,
      List.disjoint_cons_left.mpr ⟨claim_not_mem scope _, fun name member inside => ?_⟩⟩
    · exact later.new member List.mem_cons_self
    · exact later.new member (List.mem_cons_of_mem _ inside)

theorem map_fst_claimAll (m : Module) (scope : Scope) (ids : List ValueId) :
    (claimAll m scope ids).map Prod.fst = ids := by
  induction ids generalizing scope with
  | nil => rfl
  | cons id ids ih => exact congrArg (List.cons id) (ih _)

/-- A new name without a number is handed out as it is. -/
theorem claim_of_new (nonempty : name ≠ "") (new : name ∉ scope.used)
    (unnumbered : scope.counts.lookup name = none) :
    scope.claim name = (name, ⟨(name, 1) :: scope.counts, name :: scope.used⟩) := by
  have first : scope.firstCount name = 0 := by
    rw [firstCount, unnumbered, Option.getD_none, if_neg]
    simpa using nonempty
  have free : scope.freeCount name = 0 := by
    have unused : scope.used.contains (numbered name 0) = false := by
      simpa [numbered] using new
    rw [freeCount, first, List.range'_succ, List.find?_cons, unused]
    rfl
  rw [Scope.claim, free]
  rfl

/-- **A scope in which only names in use have a number.** -/
def Plain (scope : Scope) : Prop :=
  ∀ name ∉ scope.used, scope.counts.lookup name = none

theorem Plain.claim_eq (plain : scope.Plain) (nonempty : name ≠ "") (new : name ∉ scope.used) :
    scope.claim name = (name, ⟨(name, 1) :: scope.counts, name :: scope.used⟩) :=
  claim_of_new nonempty new (plain name new)

theorem Plain.claim (plain : scope.Plain) (nonempty : name ≠ "") (new : name ∉ scope.used) :
    (scope.claim name).2.Plain := by
  rw [plain.claim_eq nonempty new]
  intro other fresh
  have different : other ≠ name := fun same => fresh (same ▸ List.mem_cons_self)
  have unused : other ∉ scope.used := fun member => fresh (List.mem_cons_of_mem _ member)
  rw [List.lookup_cons, beq_false_of_ne different]
  exact plain other unused

/-- **Names that differ from one another are kept.** -/
theorem claimAll_eq {pairs : List (ValueId × String)} (plain : scope.Plain)
    (handed : scope.Handed (pairs.map Prod.snd))
    (stored : ∀ entry ∈ pairs, next.storedName entry.1 = entry.2) :
    claimAll next scope (pairs.map Prod.fst) = pairs := by
  induction pairs generalizing scope with
  | nil => rfl
  | cons entry pairs ih =>
    obtain ⟨id, name⟩ := entry
    obtain ⟨nonempty, nonempty'⟩ := List.forall_mem_cons.mp handed.nonempty
    obtain ⟨fresh, distinct⟩ := List.nodup_cons.mp handed.distinct
    obtain ⟨new, new'⟩ := List.disjoint_cons_left.mp handed.new
    obtain ⟨known, stored'⟩ := List.forall_mem_cons.mp stored
    have claimed := plain.claim_eq nonempty new
    have later := ih (plain.claim nonempty new) ⟨nonempty', distinct, ?_⟩ stored'
    · rw [claimed] at later
      rw [List.map_cons, claimAll, known, claimed]
      exact congrArg (List.cons (id, name)) later
    · rw [claimed]
      exact List.disjoint_cons_right.mpr ⟨fresh, new'⟩

theorem sound_empty : empty.Sound :=
  fun _ member => (nomatch member)

theorem plain_empty : empty.Plain :=
  fun _ _ => rfl

end Scope

/-! ### The table of a module -/

namespace Module

variable {m next : Module} {id function : ValueId} {name : String}

theorem map_fst_names (m : Module) : (NameTable.of m).names.map Prod.fst =
    m.globals ++ m.functions.flatMap fun function => function :: m.scopeOf function := by
  rw [NameTable.of, List.map_append, Scope.map_fst_claimAll, List.map_flatMap]
  refine congrArg _ (List.flatMap_congr fun function _ => ?_)
  rw [List.map_cons, Scope.map_fst_claimAll]

theorem Linked.content?_of_parameter (linked : Linked m) (member : id ∈ m.parametersOf function) :
    ∃ held, m.content? id = some (.parameter held) ∧ held.function = function := by
  obtain ⟨held, known, owner⟩ := linked.parameter_of_mem member
  rw [Module.parameter?] at known
  split at known
  case h_1 found => exact ⟨held, Option.some.inj known ▸ found, owner⟩
  case h_2 => cases known

theorem Linked.content?_of_block (linked : Linked m) (member : id ∈ m.blocksOf function) :
    ∃ held, m.content? id = some (.block held) ∧ held.function = function := by
  obtain ⟨held, known, owner⟩ := linked.owner member
  exact ⟨held, content?_of_block? known, owner⟩

theorem Linked.content?_of_value (linked : Linked m) (member : id ∈ m.bodyOf function) :
    ∃ held, m.content? id = some (.instruction held) ∧ m.owner? id = some function := by
  obtain ⟨block, own, listed⟩ := List.mem_flatMap.mp member
  obtain ⟨content, isBlock, owner⟩ := linked.owner own
  obtain ⟨held, known, place⟩ := Option.bind_eq_some_iff.mp (linked.place listed)
  have found := content?_of_instruction? known
  refine ⟨held, found, ?_⟩
  rw [Module.owner?, found]
  show held.block.bind _ = _
  rw [place, Option.bind_some, isBlock, Option.map_some, owner]

/-- What shares the scope of a function belongs to it. -/
theorem Linked.owner?_of_scope (linked : Linked m) (member : id ∈ m.scopeOf function) :
    m.owner? id = some function := by
  rw [scopeOf, List.append_assoc] at member
  rcases List.mem_append.mp member with parameter | member
  · obtain ⟨held, found, owner⟩ := linked.content?_of_parameter parameter
    rw [Module.owner?, found]
    exact congrArg some owner
  rcases List.mem_append.mp member with block | value
  · obtain ⟨held, found, owner⟩ := linked.content?_of_block block
    rw [Module.owner?, found]
    exact congrArg some owner
  · exact (linked.content?_of_value (List.mem_of_mem_filter value)).elim fun _ known => known.2

theorem Linked.nodup_scopeOf (linked : Linked m) (function : ValueId) :
    (m.scopeOf function).Nodup := by
  refine ((linked.nodup_parametersOf function).append (linked.distinctBlocks function) ?_).append
    ((linked.nodup_bodyOf function).filter _) ?_
  · intro id parameter block
    obtain ⟨_, found, _⟩ := linked.content?_of_parameter parameter
    obtain ⟨_, found', _⟩ := linked.content?_of_block block
    cases found.symm.trans found'
  · intro id first value
    obtain ⟨_, found, _⟩ := linked.content?_of_value (List.mem_of_mem_filter value)
    rcases List.mem_append.mp first with parameter | block
    · obtain ⟨_, found', _⟩ := linked.content?_of_parameter parameter
      cases found.symm.trans found'
    · obtain ⟨_, found', _⟩ := linked.content?_of_block block
      cases found.symm.trans found'

theorem Linked.nodup_homes (linked : Linked m) (function : ValueId) :
    (Frame.homes m function).Nodup :=
  (linked.nodup_scopeOf function).sublist ((List.sublist_append_left _ _).append_right _)

/-- Functions stand in the table with the names that they are given. -/
theorem mem_names_of_function (member : function ∈ m.functions) :
    (function, m.storedName function) ∈ (NameTable.of m).names :=
  List.mem_append_right _ (List.mem_flatMap.mpr ⟨function, member, List.mem_cons_self⟩)

/-- What stands in the table of names: a global, a function, or what shares the scope of one. -/
theorem mem_names {entry : ValueId × String} (member : entry ∈ (NameTable.of m).names) :
    entry.1 ∈ m.globals ∨ ∃ function ∈ m.functions,
      entry.1 = function ∨ entry.1 ∈ m.scopeOf function := by
  have listed := List.mem_map_of_mem (f := Prod.fst) member
  rw [map_fst_names] at listed
  rcases List.mem_append.mp listed with global | inner
  · exact .inl global
  · obtain ⟨function, own, inside⟩ := List.mem_flatMap.mp inner
    exact .inr ⟨function, own, List.mem_cons.mp inside⟩

theorem owner?_of_roster {roster : Roster} (listed : m.roster? id = some roster) :
    m.owner? id = none := by
  obtain ⟨content, found, kind⟩ := Option.bind_eq_some_iff.mp listed
  rw [Module.owner?, found]
  cases content <;> first | rfl | cases kind

/-- **Every value is named once.** -/
theorem Built.distinct_names (built : Built m) :
    ((NameTable.of m).names.map Prod.fst).Nodup := by
  have enrolled := built.enrolled
  have linked := built.linked
  have outside : ∀ {id roster function}, m.roster? id = some roster → id ∉ m.scopeOf function := by
    intro id roster function listed member
    cases (owner?_of_roster listed).symm.trans (linked.owner?_of_scope member)
  rw [map_fst_names]
  refine enrolled.distinctGlobals.append (List.nodup_flatMap.mpr ⟨fun function member => ?_, ?_⟩) ?_
  · exact List.nodup_cons.mpr
      ⟨outside (enrolled.functions function member), linked.nodup_scopeOf function⟩
  · refine enrolled.distinctFunctions.imp_of_mem fun {first second} one other different id here there => ?_
    rcases List.mem_cons.mp here with rfl | here <;> rcases List.mem_cons.mp there with rfl | there
    · exact different rfl
    · exact outside (enrolled.functions _ one) there
    · exact outside (enrolled.functions _ other) here
    · have owner := linked.owner?_of_scope here
      rw [linked.owner?_of_scope there] at owner
      exact different (Option.some.inj owner).symm
  · intro id global inner
    obtain ⟨function, listed, member⟩ := List.mem_flatMap.mp inner
    rcases List.mem_cons.mp member with rfl | inside
    · cases (enrolled.globals id global).symm.trans (enrolled.functions id listed)
    · exact outside (enrolled.globals id global) inside

/-- **Every value with a name is there.** -/
theorem Built.content_of_mem_names (built : Built m) {entry : ValueId × String}
    (member : entry ∈ (NameTable.of m).names) : (m.content? entry.1).isSome := by
  have enrolled : ∀ {id roster}, m.roster? id = some roster → (m.content? id).isSome := by
    intro id roster listed
    obtain ⟨content, found, _⟩ := Option.bind_eq_some_iff.mp listed
    rw [found, Option.isSome_some]
  rcases mem_names member with global | ⟨function, own, same | inside⟩
  · exact enrolled (built.enrolled.globals _ global)
  · exact enrolled (built.enrolled.functions _ (same ▸ own))
  · have owner := built.linked.owner?_of_scope inside
    rw [Module.owner?] at owner
    cases found : m.content? entry.1 with
    | some _ => rfl
    | none => rw [found] at owner; cases owner

/-! ### Storing names -/

/-- Stores the name of one value. -/
def storeName (m : Module) (entry : ValueId × String) : Module :=
  m.modify entry.1 fun held => { held with name := entry.2 }

theorem resolveNames_eq (m : Module) : m.resolveNames = (NameTable.of m).names.foldl storeName m :=
  rfl

theorem storedName_storeName {entry : ValueId × String} (held : (m.content? entry.1).isSome)
    (id : ValueId) :
    (m.storeName entry).storedName id = if id = entry.1 then entry.2 else m.storedName id := by
  rw [storedName, storeName, entry?_modify]
  split
  case isTrue same =>
    rw [content?, Option.isSome_map] at held
    obtain ⟨place, found⟩ := Option.isSome_iff_exists.mp held
    rw [same, found]
    rfl
  case isFalse => rfl

theorem renamed_storeName (m : Module) (entry : ValueId × String) : Renamed m (m.storeName entry) :=
  .modify m entry.1 (fun _ => rfl) fun _ => rfl

/-- Of names stored for different values, each is there in the end. -/
theorem storedName_foldl {table : List (ValueId × String)} (distinct : (table.map Prod.fst).Nodup)
    (held : ∀ entry ∈ table, (m.content? entry.1).isSome) (id : ValueId) :
    (table.foldl storeName m).storedName id = (table.lookup id).getD (m.storedName id) := by
  induction table generalizing m with
  | nil => rfl
  | cons entry table ih =>
    obtain ⟨fresh, distinct'⟩ := List.nodup_cons.mp distinct
    obtain ⟨here, held'⟩ := List.forall_mem_cons.mp held
    have known : ∀ other ∈ table, ((m.storeName entry).content? other.1).isSome := by
      rw [(renamed_storeName m entry).content?]
      exact held'
    rw [List.foldl_cons, ih distinct' known, storedName_storeName here]
    by_cases same : id = entry.1
    · have absent : table.lookup id = none := List.lookup_eq_none_iff.mpr fun other member =>
        bne_iff_ne.mpr fun equal => fresh (same ▸ equal ▸ List.mem_map_of_mem member)
      rw [absent, if_pos same, Option.getD_none, List.lookup_cons, beq_iff_eq.mpr same,
        Option.getD_some]
    · rw [if_neg same, List.lookup_cons, beq_false_of_ne same]

/-- **What is stored is the name that was printed.** -/
theorem Built.storedName_resolveNames (built : Built m) (id : ValueId) :
    m.resolveNames.storedName id = (Printer.of m).name id :=
  storedName_foldl built.distinct_names (fun _ => built.content_of_mem_names) id

theorem Built.storedName_of_mem_names (built : Built m) {entry : ValueId × String}
    (member : entry ∈ (NameTable.of m).names) : m.resolveNames.storedName entry.1 = entry.2 := by
  rw [built.storedName_resolveNames, Printer.name]
  show ((NameTable.of m).names.lookup entry.1).getD _ = _
  rw [lookup_of_mem built.distinct_names member, Option.getD_some]

/-- **The table of a module with resolved names is the one whose names were stored.** -/
theorem Built.table_resolveNames (built : Built m) : NameTable.of m.resolveNames = NameTable.of m := by
  have renamed := Renamed.resolveNames m
  have kept : ∀ ids, (∀ entry ∈ Scope.claimAll m .empty ids, entry ∈ (NameTable.of m).names) →
      Scope.claimAll m.resolveNames .empty ids = Scope.claimAll m .empty ids := by
    intro ids inside
    have again := Scope.claimAll_eq Scope.plain_empty
      (Scope.Handed.of_claimAll Scope.sound_empty m ids)
      fun entry member => built.storedName_of_mem_names (inside entry member)
    rwa [Scope.map_fst_claimAll] at again
  have globals := kept m.globals fun entry member => List.mem_append_left _ member
  have functions : ∀ function ∈ m.functions,
      ((function, m.resolveNames.storedName function) ::
        Scope.claimAll m.resolveNames .empty (m.scopeOf function)) =
      (function, m.storedName function) :: Scope.claimAll m .empty (m.scopeOf function) := by
    intro function own
    have inside : ∀ entry ∈ (function, m.storedName function) ::
        Scope.claimAll m .empty (m.scopeOf function), entry ∈ (NameTable.of m).names :=
      fun entry member => List.mem_append_right _ (List.mem_flatMap.mpr ⟨function, own, member⟩)
    rw [kept _ fun entry member => inside entry (List.mem_cons_of_mem _ member),
      built.storedName_of_mem_names (inside _ List.mem_cons_self)]
  refine congrArg NameTable.mk ?_
  rw [renamed.globals, renamed.functions, renamed.scopeOf, globals]
  exact congrArg _ (List.flatMap_congr functions)

/-- **Resolving names does not change the name of any value.** -/
theorem Built.name_resolveNames (built : Built m) :
    (Printer.of m.resolveNames).name = (Printer.of m).name := by
  funext id
  show ((NameTable.of m.resolveNames).get? id).getD (m.resolveNames.storedName id) = _
  rw [built.table_resolveNames, built.storedName_resolveNames]
  show _ = ((NameTable.of m).get? id).getD (m.storedName id)
  cases found : (NameTable.of m).get? id with
  | some name => rfl
  | none =>
    show ((NameTable.of m).get? id).getD _ = _
    rw [found]
    rfl

/-- A name that is stored already. -/
theorem storeName_self {entry : ValueId × String} (stored : m.storedName entry.1 = entry.2) :
    m.storeName entry = m := by
  have entries : (m.storeName entry).entries = m.entries := by
    refine Array.ext_getElem? fun index => ?_
    have after := entry?_modify m entry.1 ⟨index⟩ fun held => { held with name := entry.2 }
    refine after.trans ?_
    split
    case isTrue same =>
      rw [← same, storedName] at stored
      show (m.entry? ⟨index⟩).map _ = m.entry? ⟨index⟩
      cases found : m.entry? ⟨index⟩ with
      | none => rfl
      | some held =>
        rw [found] at stored
        exact congrArg some (congrArg (fun name => { held with name }) stored.symm)
    case isFalse => rfl
  exact congrArg (fun entries => { m with entries }) entries

theorem foldl_storeName_self {table : List (ValueId × String)}
    (stored : ∀ entry ∈ table, m.storedName entry.1 = entry.2) : table.foldl storeName m = m := by
  induction table with
  | nil => rfl
  | cons entry table ih =>
    obtain ⟨here, others⟩ := List.forall_mem_cons.mp stored
    rw [List.foldl_cons, storeName_self here, ih others]

/-- **Resolving names changes nothing the second time.** -/
theorem Built.resolveNames_resolveNames (built : Built m) :
    m.resolveNames.resolveNames = m.resolveNames := by
  rw [resolveNames_eq m.resolveNames, built.table_resolveNames]
  exact foldl_storeName_self fun _ => built.storedName_of_mem_names

end Module

end SsaAmd64
