/-
**The two lists of a module.**

A module lists its functions and its globals, each of them once. A value joins the list of its kind
when it is created, and no value ever leaves one or changes its kind.

* `Module.roster?`: the list of the module that a value is on;
* `Module.Steady`: two modules with the same lists, where the old values are on them as before;
* `Module.Enrolled`: nothing is listed twice, or on the wrong list;
* `Module.Built.enrolled`: every module that can be built lists its values so.
-/

import SsaAmd64.Proofs.Ir.Listed

namespace SsaAmd64

/-- One of the lists of a module. -/
inductive Roster where
  | functions
  | globals
deriving DecidableEq

/-- The list of the module that a value of this kind is on. -/
def Content.roster? : Content → Option Roster
  | .function _ => some .functions
  | .global _ => some .globals
  | _ => none

theorem Content.Rewired.roster?_eq {content next : Content} (rewired : content.Rewired next) :
    next.roster? = content.roster? := by
  cases rewired <;> rfl

namespace Module

variable {m next : Module} {id : ValueId} {change : Entry → Entry} {content : Content} {name : String}

/-- The list of the module that a value is on. -/
def roster? (m : Module) (id : ValueId) : Option Roster :=
  (m.content? id).bind Content.roster?

theorem isSome_global?_iff : (m.global? id).isSome ↔ m.roster? id = some .globals := by
  rw [global?, roster?]
  cases m.content? id with
  | none => simp
  | some content => cases content <;> simp [Content.roster?]

/-- **The same lists, with the old values on them as before.** -/
structure Steady (m next : Module) : Prop where
  functions : next.functions = m.functions
  globals : next.globals = m.globals
  kept : ∀ id roster, m.roster? id = some roster → next.roster? id = some roster

namespace Steady

theorem refl (m : Module) : Steady m m :=
  ⟨rfl, rfl, fun _ _ same => same⟩

theorem trans {first second third : Module} (one : Steady first second)
    (other : Steady second third) : Steady first third :=
  ⟨other.functions.trans one.functions, other.globals.trans one.globals,
    fun id roster same => other.kept id roster (one.kept id roster same)⟩

theorem of_rewired (rewired : Rewired m next) : Steady m next := by
  refine ⟨rewired.functions, rewired.globals, fun id roster same => ?_⟩
  have related := rewired.contents id
  obtain ⟨content, found, kind⟩ := Option.bind_eq_some_iff.mp same
  rw [found] at related
  rw [roster?]
  revert related
  cases next.content? id <;> intro related <;> cases related
  rename_i related
  rw [Option.bind_some, related.roster?_eq, kind]

theorem modify (m : Module) (id : ValueId)
    (keeps : ∀ entry, (change entry).content.roster? = entry.content.roster?) :
    Steady m (m.modify id change) := by
  refine ⟨rfl, rfl, fun other roster same => ?_⟩
  rw [roster?, content?, entry?_modify]
  split
  · rw [← same, roster?, content?, Option.map_map, Option.bind_map, Option.bind_map]
    exact congrArg (Option.bind (m.entry? other)) (funext keeps)
  · exact same

theorem modifyGlobal (m : Module) (id : ValueId) (change : Global → Global) :
    Steady m (m.modifyGlobal id change) := by
  refine modify m id ?_
  rintro ⟨content, name, uses⟩
  cases content <;> rfl

theorem modifyFunction (m : Module) (id : ValueId) (change : Function → Function) :
    Steady m (m.modifyFunction id change) := by
  refine modify m id ?_
  rintro ⟨content, name, uses⟩
  cases content <;> rfl

theorem modifyBlock (m : Module) (id : ValueId) (change : Block → Block) :
    Steady m (m.modifyBlock id change) := by
  refine modify m id ?_
  rintro ⟨content, name, uses⟩
  cases content <;> rfl

theorem modifyInstruction (m : Module) (id : ValueId) (change : Instruction → Instruction) :
    Steady m (m.modifyInstruction id change) := by
  refine modify m id ?_
  rintro ⟨content, name, uses⟩
  cases content <;> rfl

theorem push (m : Module) (content : Content) (name : String) :
    Steady m (m.push content name).2 := by
  refine ⟨rfl, rfl, fun id roster same => ?_⟩
  rw [roster?, content?_push, if_neg]
  · exact same
  · rintro rfl
    rw [roster?, content?_new] at same
    cases same

theorem pushParameters (m : Module) (function : ValueId) (position : Nat) (types : List Ty) :
    Steady m (m.pushParameters function position types).2 := by
  induction types generalizing m position with
  | nil => exact refl m
  | cons type types ih => exact (push m _ "").trans (ih _ (position + 1))

end Steady

/-- **Nothing is listed twice, or on the wrong list.** -/
structure Enrolled (m : Module) : Prop where
  functions : ∀ id ∈ m.functions, m.roster? id = some .functions
  globals : ∀ id ∈ m.globals, m.roster? id = some .globals
  distinctFunctions : m.functions.Nodup
  distinctGlobals : m.globals.Nodup

theorem enrolled_empty (name : String) : Enrolled (Module.empty name) :=
  ⟨nofun, nofun, .nil, .nil⟩

namespace Enrolled

theorem steady (enrolled : Enrolled m) (steady : Steady m next) : Enrolled next := by
  refine ⟨?_, ?_, ?_, ?_⟩
  · rw [steady.functions]
    exact fun id member => steady.kept id _ (enrolled.functions id member)
  · rw [steady.globals]
    exact fun id member => steady.kept id _ (enrolled.globals id member)
  · rw [steady.functions]
    exact enrolled.distinctFunctions
  · rw [steady.globals]
    exact enrolled.distinctGlobals

/-- A new value joins the list of the functions. -/
theorem joinFunctions (enrolled : Enrolled m) (fresh : id ∉ m.functions)
    (isFunction : m.roster? id = some .functions) :
    Enrolled { m with functions := m.functions ++ [id] } := by
  refine ⟨fun other member => ?_, enrolled.globals, ?_, enrolled.distinctGlobals⟩
  · rcases List.mem_append.mp member with old | new
    · exact enrolled.functions other old
    · rw [List.mem_singleton.mp new]
      exact isFunction
  · exact enrolled.distinctFunctions.append (List.nodup_singleton id)
      (List.disjoint_singleton.mpr fresh)

/-- A new value joins the list of the globals. -/
theorem joinGlobals (enrolled : Enrolled m) (fresh : id ∉ m.globals)
    (isGlobal : m.roster? id = some .globals) :
    Enrolled { m with globals := m.globals ++ [id] } := by
  refine ⟨enrolled.functions, fun other member => ?_, enrolled.distinctFunctions, ?_⟩
  · rcases List.mem_append.mp member with old | new
    · exact enrolled.globals other old
    · rw [List.mem_singleton.mp new]
      exact isGlobal
  · exact enrolled.distinctGlobals.append (List.nodup_singleton id)
      (List.disjoint_singleton.mpr fresh)

/-- What is not there yet is on no list. -/
theorem not_mem_of_new (enrolled : Enrolled m) :
    ⟨m.entries.size⟩ ∉ m.functions ∧ ⟨m.entries.size⟩ ∉ m.globals := by
  have none : m.roster? ⟨m.entries.size⟩ = none := by
    rw [roster?, content?_new]
    rfl
  constructor <;> intro member
  · cases none.symm.trans (enrolled.functions _ member)
  · cases none.symm.trans (enrolled.globals _ member)

theorem addGlobal (enrolled : Enrolled m) {storage : Ty} {initialiser : Initialiser}
    {added : ValueId × Module} (done : m.addGlobal storage initialiser name = .ok added) :
    Enrolled added.2 := by
  obtain ⟨_, _, result⟩ := ok_of_bind done
  rw [← Except.ok.inj result]
  refine (enrolled.steady (.push m _ name)).joinGlobals enrolled.not_mem_of_new.2 ?_
  rw [roster?, content?_push, if_pos rfl]
  rfl

theorem addFunction (enrolled : Enrolled m) {signature : Signature} {added : ValueId × Module}
    (done : m.addFunction signature name = .ok added) : Enrolled added.2 := by
  rw [Module.addFunction] at done
  split at done
  case isTrue => cases done
  case isFalse =>
    rw [← Except.ok.inj done]
    have grown := (Steady.pushParameters (m.push (.function ⟨signature, [], []⟩) name).2
      ⟨m.entries.size⟩ 0 signature.parameters).trans (.modifyFunction _ ⟨m.entries.size⟩
        fun function => { function with parameters := ((m.push (.function ⟨signature, [], []⟩)
          name).2.pushParameters ⟨m.entries.size⟩ 0 signature.parameters).1 })
    have start := Steady.push m (.function ⟨signature, [], []⟩) name
    refine ((enrolled.steady start).steady grown).joinFunctions ?_ (grown.kept _ _ ?_)
    · rw [grown.functions, start.functions]
      exact enrolled.not_mem_of_new.1
    · rw [roster?, content?_push, if_pos rfl]
      rfl

end Enrolled

namespace Steady

theorem setInitialiser {target : ValueId} {initialiser : Initialiser}
    (done : m.setInitialiser target initialiser = .ok next) : Steady m next := by
  obtain ⟨_, _, rest⟩ := ok_of_bind done
  obtain ⟨_, _, result⟩ := ok_of_bind rest
  rw [← Except.ok.inj result]
  exact modifyGlobal m target _

theorem addBlock {function : ValueId} {place : BlockPlace} {added : ValueId × Module}
    (done : m.addBlock function place name = .ok added) : Steady m added.2 := by
  obtain ⟨_, _, result⟩ := ok_of_bind done
  rw [← Except.ok.inj result]
  exact (push m _ name).trans (modifyFunction _ function _)

theorem insert {cursor : Cursor} {form : Form} {insertion : Insertion}
    (done : cursor.insert m form name = .ok insertion) : Steady m insertion.outcome := by
  rw [Cursor.insert] at done
  split at done
  case h_1 => cases done
  case h_2 =>
    obtain ⟨⟨block, position⟩, _, rest⟩ := ok_of_bind done
    obtain ⟨_, _, result⟩ := ok_of_bind rest
    rw [← Except.ok.inj result]
    exact ((push m _ _).trans (modifyBlock _ block _)).trans
      (.of_rewired (Rewired.foldl (fun m value => Rewired.addUse m _ value) _ _))

theorem remove {instruction : ValueId} {replacement : Option ValueId}
    (done : m.remove instruction replacement = .ok next) : Steady m next := by
  obtain ⟨_, block, redirected, _, _, rfl, rewired⟩ := Rewired.ok_of_remove done
  have emptied := rewired.trans (Rewired.emptySlots redirected instruction)
  exact ((of_rewired emptied).trans (modifyBlock _ block _)).trans
    (modifyInstruction _ instruction _)

end Steady

end Module

/-- **Every operation keeps the lists in order.** -/
theorem Operation.enrolled {m next : Module} {operation : Operation} (enrolled : m.Enrolled)
    (done : operation.apply m = .ok next) : next.Enrolled := by
  cases operation with
  | addLiteral literal =>
    rw [← Except.ok.inj done]
    exact enrolled.steady (.push m _ "")
  | addGlobal storage initialiser name =>
    obtain ⟨added, granted, rfl⟩ := ok_of_map done
    exact enrolled.addGlobal granted
  | addText text terminated name =>
    obtain ⟨added, granted, rfl⟩ := ok_of_map done
    exact (enrolled.steady (.push m _ "")).addGlobal granted
  | setInitialiser target initialiser => exact enrolled.steady (.setInitialiser done)
  | addFunction signature name =>
    obtain ⟨added, granted, rfl⟩ := ok_of_map done
    exact enrolled.addFunction granted
  | addBlock function place name =>
    obtain ⟨added, granted, rfl⟩ := ok_of_map done
    exact enrolled.steady (.addBlock granted)
  | insert cursor form name =>
    obtain ⟨insertion, granted, rfl⟩ := ok_of_map done
    exact enrolled.steady (.insert granted)
  | replaceOperand instruction slot filling =>
    exact enrolled.steady (.of_rewired (.replaceOperand done))
  | replaceUses old new => exact enrolled.steady (.of_rewired (.replaceUses done))
  | addIncoming phi value block => exact enrolled.steady (.of_rewired (.addIncoming done))
  | removeIncoming phi index => exact enrolled.steady (.of_rewired (.removeIncoming done))
  | remove instruction replacement => exact enrolled.steady (.remove done)
  | rename id name =>
    rw [← Except.ok.inj done]
    exact enrolled.steady (.of_rewired (.rename m id name))
  | resolveNames =>
    rw [← Except.ok.inj done]
    exact enrolled.steady (.of_rewired (.resolveNames m))

/-- **Every module that can be built lists its functions and its globals once.** -/
theorem Module.Built.enrolled {m : Module} (built : Built m) : m.Enrolled := by
  induction built with
  | empty name => exact enrolled_empty name
  | step operation _ done ih => exact Operation.enrolled ih done

end SsaAmd64
