/-
**Cursors keep program order.**

Several cursors work on one module, each with requests of its own, in any interleaving. What one
cursor has created stays in front of it, wherever the others insert; so what it creates next comes
behind that. What was there before is only moved apart.

* `Module.Stands`: the place of an insertion point between the instructions of a block;
* `Module.Stands.insert`: what a request does there; `Module.Stands.shift`: where other points stand
  afterwards;
* `Draft`: a module under construction, with its cursors and what they have created so far;
* `Draft.Orderly`: what holds of a draft after any requests, kept by each of them;
* `Module.Built.drafts_ordered`: any interleaving of requests keeps program order.
-/

import Mathlib.Data.List.Basic
import SsaAmd64.Proofs.Ir.Listed

namespace SsaAmd64

/-! ### Insertion points -/

/-- The block that an insertion point belongs to: the one that holds its anchor, or the one that it
names. -/
def InsertionPoint.Attached (m : Module) (block : ValueId) : InsertionPoint → Prop
  | before anchor => m.blockOf? anchor = some block
  | after anchor => m.blockOf? anchor = some block
  | start named => named = block ∧ (m.block? block).isSome
  | finish named => named = block ∧ (m.block? block).isSome

instance (m : Module) (block : ValueId) (point : InsertionPoint) :
    Decidable (point.Attached m block) :=
  match point with
  | .before anchor => inferInstanceAs (Decidable (m.blockOf? anchor = some block))
  | .after anchor => inferInstanceAs (Decidable (m.blockOf? anchor = some block))
  | .start named => inferInstanceAs (Decidable (named = block ∧ (m.block? block).isSome))
  | .finish named => inferInstanceAs (Decidable (named = block ∧ (m.block? block).isSome))

/-- The point of a block between the instructions in front of it and those behind it. -/
def InsertionPoint.Between (block : ValueId) (front back : List ValueId) : InsertionPoint → Prop
  | before anchor => back.head? = some anchor
  | after anchor => front.getLast? = some anchor
  | start named => named = block ∧ front = []
  | finish named => named = block ∧ back = []

namespace Module

variable {m next : Module} {point : InsertionPoint} {block anchor id : ValueId}
variable {front back front' back' : List ValueId}

/-- **An insertion point stands in a block**, between some of its instructions and the others. -/
structure Stands (m : Module) (point : InsertionPoint) (block : ValueId)
    (front back : List ValueId) : Prop where
  isBlock : (m.block? block).isSome
  split : m.instructionsOf block = front ++ back
  between : point.Between block front back

theorem isSome_block?_of_mem (member : id ∈ m.instructionsOf block) : (m.block? block).isSome := by
  refine Option.isSome_iff_ne_none.mpr fun absent => ?_
  rw [instructionsOf, absent] at member
  cases member

theorem Listed.exists_stands (listed : Listed m) (attached : point.Attached m block) :
    ∃ front back, m.Stands point block front back := by
  cases point with
  | before anchor =>
    have member := listed.mem_instructionsOf attached
    obtain ⟨front, back, split⟩ := List.append_of_mem member
    exact ⟨front, anchor :: back, isSome_block?_of_mem member, split, rfl⟩
  | after anchor =>
    have member := listed.mem_instructionsOf attached
    obtain ⟨front, back, split⟩ := List.append_of_mem member
    refine ⟨front ++ [anchor], back, isSome_block?_of_mem member, ?_, List.getLast?_concat⟩
    rw [split, List.append_assoc, List.singleton_append]
  | start named => exact ⟨[], _, attached.2, rfl, attached.1, rfl⟩
  | finish named => exact ⟨_, [], attached.2, (List.append_nil _).symm, attached.1, rfl⟩

/-! ### One request -/

theorem Linked.anchored_of_split (linked : Linked m)
    (split : m.instructionsOf block = front ++ anchor :: back) :
    locate.anchored m anchor = .ok (block, front.length) := by
  have member : anchor ∈ m.instructionsOf block := by simp [split]
  have apart : anchor ∉ front := by
    have distinct := linked.distinct block
    rw [split] at distinct
    exact fun inside => (List.nodup_append.mp distinct).2.2 anchor inside anchor
      List.mem_cons_self rfl
  have position : m.position? block anchor = some front.length := by
    have none : front.findIdx? (· = anchor) = none := by
      refine List.findIdx?_eq_none_iff.mpr fun other inside => decide_eq_false ?_
      rintro rfl
      exact apart inside
    rw [position?, split, List.findIdx?_append, none, List.findIdx?_cons]
    simp
  obtain ⟨held, known, place⟩ := Option.bind_eq_some_iff.mp (linked.place member)
  rw [locate.anchored, requireInstruction, known]
  simp only [bind, Except.bind, place, position]
  rfl

theorem requireBlock_of_isSome (isBlock : (m.block? block).isSome) :
    ∃ held, m.requireBlock block = .ok held ∧ held.instructions = m.instructionsOf block := by
  obtain ⟨held, known⟩ := Option.isSome_iff_exists.mp isBlock
  exact ⟨held, by rw [requireBlock, known], by rw [instructionsOf, known]; rfl⟩

/-- A point stands for the position behind all that is in front of it. -/
theorem Stands.locate (linked : Linked m) (stands : m.Stands point block front back) :
    m.locate point = .ok (block, front.length) := by
  obtain ⟨isBlock, split, between⟩ := stands
  cases point with
  | before anchor =>
    obtain ⟨back, rfl⟩ := List.head?_eq_some_iff.mp between
    rw [Module.locate, linked.anchored_of_split split]
    rfl
  | after anchor =>
    obtain ⟨front, rfl⟩ := List.getLast?_eq_some_iff.mp between
    rw [List.append_assoc, List.singleton_append] at split
    rw [Module.locate, linked.anchored_of_split split, List.length_append]
    rfl
  | start named =>
    obtain ⟨rfl, rfl⟩ := between
    obtain ⟨held, granted, _⟩ := requireBlock_of_isSome isBlock
    rw [Module.locate, granted]
    rfl
  | finish named =>
    obtain ⟨rfl, rfl⟩ := between
    obtain ⟨held, granted, same⟩ := requireBlock_of_isSome isBlock
    rw [List.append_nil] at split
    rw [Module.locate, granted, ← split, ← same]
    rfl

theorem insertIdx_append (front back : List ValueId) (id : ValueId) :
    (front ++ back).insertIdx front.length id = front ++ id :: back := by
  induction front with
  | nil => rfl
  | cons first front ih => exact congrArg _ ih

/-- A new instruction comes between those in front of its position and those behind it. -/
theorem instructionsOf_insertAt (isBlock : (m.block? block).isSome)
    (split : m.instructionsOf block = front ++ back) (opcode : Opcode) (operands : List Slot)
    (name : String) :
    (m.insertAt block front.length opcode operands name).2.instructionsOf block =
      front ++ ⟨m.entries.size⟩ :: back := by
  obtain ⟨held, known⟩ := Option.isSome_iff_exists.mp isBlock
  rw [instructionsOf, known] at split
  rw [instructionsOf, block?_insertAt, if_pos rfl, known, ← insertIdx_append, ← split]
  rfl

theorem isSome_block?_insertAt (m : Module) (block : ValueId) (position : Nat) (opcode : Opcode)
    (operands : List Slot) (name : String) (id : ValueId) :
    ((m.insertAt block position opcode operands name).2.block? id).isSome =
      (m.block? id).isSome := by
  rw [block?_insertAt]
  split
  · exact Option.isSome_map
  · rfl

/-- **What a request does at an insertion point**: it fails if its operands are refused, and for no
other reason. -/
theorem Stands.insert (linked : Linked m) (stands : m.Stands point block front back) (form : Form)
    (name : String) : Cursor.insert ⟨some point⟩ m form name = (form.check m).map fun _ =>
      ⟨⟨m.entries.size⟩, (m.insertAt block front.length form.opcode form.operands name).2,
        ⟨some (Cursor.advance point ⟨m.entries.size⟩)⟩⟩ := by
  rw [Cursor.insert]
  simp only [stands.locate linked]
  cases form.check m <;> rfl

theorem instructionsOf_congr (same : next.block? block = m.block? block) :
    next.instructionsOf block = m.instructionsOf block := by
  rw [instructionsOf, same, instructionsOf]

/-- A point stands where it stood in a block that has not changed. -/
theorem Stands.congr (stands : m.Stands point block front back)
    (same : next.block? block = m.block? block) : next.Stands point block front back := by
  obtain ⟨isBlock, split, between⟩ := stands
  exact ⟨same ▸ isBlock, (instructionsOf_congr same).trans split, between⟩

/-- The cursor goes on behind what it has created. -/
theorem Stands.advance (stands : m.Stands point block front back) (opcode : Opcode)
    (operands : List Slot) (name : String) :
    Stands (m.insertAt block front.length opcode operands name).2
      (Cursor.advance point ⟨m.entries.size⟩) block (front ++ [⟨m.entries.size⟩]) back := by
  refine ⟨?_, ?_, ?_⟩
  · rw [isSome_block?_insertAt]
    exact stands.isBlock
  · rw [instructionsOf_insertAt stands.isBlock stands.split]
    simp
  · cases point with
    | finish named => exact stands.between
    | _ => exact List.getLast?_concat

/-- **Another point of the block stands where it stood**: what was in front of it still is. -/
theorem Stands.shift (stands : m.Stands point block front back)
    (split : m.instructionsOf block = front' ++ back') (isBlock : (next.block? block).isSome)
    (moved : next.instructionsOf block = front' ++ id :: back') :
    ∃ front'' back'', next.Stands point block front'' back'' ∧ front.Sublist front'' := by
  obtain ⟨_, split', between⟩ := stands
  cases point with
  | start named =>
    obtain ⟨rfl, rfl⟩ := between
    exact ⟨[], _, ⟨isBlock, rfl, rfl, rfl⟩, List.Sublist.refl []⟩
  | finish named =>
    obtain ⟨rfl, rfl⟩ := between
    refine ⟨_, [], ⟨isBlock, (List.append_nil _).symm, rfl, rfl⟩, ?_⟩
    rw [List.append_nil, split] at split'
    rw [← split', moved]
    exact (List.Sublist.refl front').append (List.sublist_cons_self id back')
  | before anchor =>
    obtain ⟨rest, rfl⟩ := List.head?_eq_some_iff.mp between
    -- What is new comes behind the point, right at it, or in front of it. At the point it stays
    -- in front of the anchor, and so of the point.
    rcases List.append_eq_append_iff.mp (split'.symm.trans split) with
      ⟨behind, rfl, same⟩ | ⟨ahead, rfl, rfl⟩
    · cases behind with
      | nil =>
        obtain rfl : anchor :: rest = back' := same
        refine ⟨front ++ [id], anchor :: rest, ⟨isBlock, ?_, rfl⟩, List.sublist_append_left _ _⟩
        rw [moved]
        simp
      | cons first behind =>
        obtain ⟨rfl, rfl⟩ := List.cons.inj same
        refine ⟨front, anchor :: behind ++ id :: back', ⟨isBlock, ?_, rfl⟩, List.Sublist.refl front⟩
        rw [moved, List.append_assoc]
    · refine ⟨front' ++ id :: ahead, anchor :: rest, ⟨isBlock, ?_, rfl⟩, ?_⟩
      · rw [moved, List.append_assoc]
        rfl
      · exact (List.Sublist.refl front').append (List.sublist_cons_self id ahead)
  | after anchor =>
    rcases List.append_eq_append_iff.mp (split'.symm.trans split) with
      ⟨behind, rfl, rfl⟩ | ⟨ahead, rfl, rfl⟩
    · refine ⟨front, behind ++ id :: back', ⟨isBlock, ?_, between⟩, List.Sublist.refl front⟩
      rw [moved, List.append_assoc]
    · cases ahead with
      | nil =>
        refine ⟨front' ++ [], id :: back, ⟨isBlock, ?_, between⟩, List.Sublist.refl _⟩
        rw [moved, List.append_nil]
        rfl
      | cons first ahead =>
        refine ⟨front' ++ id :: first :: ahead, back, ⟨isBlock, ?_, ?_⟩, ?_⟩
        · rw [moved, List.append_assoc]
          rfl
        · simpa [InsertionPoint.Between, List.getLast?_append] using between
        · exact (List.Sublist.refl front').append (List.sublist_cons_self id (first :: ahead))

end Module

/-! ### Drafts -/

/-- What a cursor is asked to build. -/
structure Request (K : Type) where
  cursor : K
  form : Form
  name : String

/-- A module under construction. -/
structure Draft (K : Type) where
  outcome : Module
  cursors : K → Cursor
  /-- What has been created, in order, each instruction with the cursor that created it. -/
  created : List (K × ValueId)

namespace Draft

open SsaAmd64.Module

variable {K : Type}

/-- Each cursor stands at its own insertion point, and nothing has been created. -/
def start (m : Module) (points : K → InsertionPoint) : Draft K :=
  ⟨m, fun key => ⟨some (points key)⟩, []⟩

/-- The instructions created so far. -/
def instructions (draft : Draft K) : List ValueId :=
  draft.created.map Prod.snd

variable [DecidableEq K]

/-- The instructions that one cursor has created so far. -/
def createdBy (draft : Draft K) (key : K) : List ValueId :=
  (draft.created.filter fun pair => pair.1 = key).map Prod.snd

/-- The cursor of a request builds an instruction and moves on; the others stay where they are. -/
def create (draft : Draft K) (request : Request K) : Except EditError (Draft K) := do
  let insertion ←
    (draft.cursors request.cursor).insert draft.outcome request.form request.name
  return ⟨insertion.outcome, Function.update draft.cursors request.cursor insertion.cursor,
    draft.created ++ [(request.cursor, insertion.instruction)]⟩

/-- Requests one after the other. -/
def createAll (draft : Draft K) (requests : List (Request K)) : Except EditError (Draft K) :=
  requests.foldlM create draft

variable {m : Module} {home : K → ValueId} {draft next : Draft K} {request : Request K}
variable {key : K}

/-- **What holds of a draft after any requests.** -/
structure Orderly (m : Module) (home : K → ValueId) (draft : Draft K) : Prop where
  linked : Linked draft.outcome
  /-- Each cursor stands in its block, behind all that it has created. -/
  stands : ∀ key, ∃ point front back, draft.cursors key = ⟨some point⟩ ∧
    draft.outcome.Stands point (home key) front back ∧ (draft.createdBy key).Sublist front
  /-- Without what has been created, every block is as it was. -/
  kept : ∀ block, ((draft.outcome.instructionsOf block).filter fun id => id ∉ draft.instructions) =
    m.instructionsOf block
  elsewhere : ∀ block, (∀ key ∈ draft.created.map Prod.fst, home key ≠ block) →
    draft.outcome.block? block = m.block? block

theorem orderly_start (linked : Linked m) (listed : Listed m) {points : K → InsertionPoint}
    (attached : ∀ key, (points key).Attached m (home key)) : Orderly m home (start m points) := by
  constructor
  case linked => exact linked
  case stands =>
    intro key
    obtain ⟨front, back, stands⟩ := listed.exists_stands (attached key)
    exact ⟨points key, front, back, rfl, stands, List.nil_sublist front⟩
  case kept =>
    intro block
    exact List.filter_eq_self.mpr fun id _ => decide_eq_true List.not_mem_nil
  case elsewhere => exact fun block _ => rfl

/-- What a draft becomes when a request is granted. -/
def grant (draft : Draft K) (request : Request K) (point : InsertionPoint) (block : ValueId)
    (position : Nat) : Draft K :=
  let id := ⟨draft.outcome.entries.size⟩
  ⟨(draft.outcome.insertAt block position request.form.opcode request.form.operands
      request.name).2,
    Function.update draft.cursors request.cursor ⟨some (Cursor.advance point id)⟩,
    draft.created ++ [(request.cursor, id)]⟩

variable {point : InsertionPoint} {block : ValueId} {front back : List ValueId}

/-- **A request is granted unless its operands are refused.** -/
theorem create_eq (linked : Linked draft.outcome)
    (here : draft.cursors request.cursor = ⟨some point⟩)
    (stands : draft.outcome.Stands point block front back) :
    draft.create request = (request.form.check draft.outcome).map fun _ =>
      draft.grant request point block front.length := by
  rw [create, here, stands.insert linked]
  cases request.form.check draft.outcome <;> rfl

theorem instructions_grant (position : Nat) :
    (draft.grant request point block position).instructions =
      draft.instructions ++ [⟨draft.outcome.entries.size⟩] := by
  simp [instructions, grant]

theorem creators_grant (position : Nat) :
    (draft.grant request point block position).created.map Prod.fst =
      draft.created.map Prod.fst ++ [request.cursor] := by
  simp [grant]

theorem createdBy_grant (position : Nat) :
    (draft.grant request point block position).createdBy key =
      draft.createdBy key ++
        if request.cursor = key then [⟨draft.outcome.entries.size⟩] else [] := by
  by_cases same : request.cursor = key <;> simp [createdBy, grant, same]

/-- A granted request keeps a draft orderly. -/
theorem Orderly.grant (orderly : Orderly m home draft)
    (stands : draft.outcome.Stands point (home request.cursor) front back)
    (behind : (draft.createdBy request.cursor).Sublist front) :
    Orderly m home (draft.grant request point (home request.cursor) front.length) := by
  have moved := instructionsOf_insertAt stands.isBlock stands.split request.form.opcode
    request.form.operands request.name
  have same : ∀ block, block ≠ home request.cursor →
      (draft.grant request point (home request.cursor) front.length).outcome.block? block =
        draft.outcome.block? block := fun block other => by
    rw [Draft.grant, block?_insertAt, if_neg other]
  -- The new instruction was in no block.
  have unseen : ∀ {list block}, list ⊆ draft.outcome.instructionsOf block →
      (list.filter fun id => id ∉ draft.instructions ++ [⟨draft.outcome.entries.size⟩]) =
        list.filter fun id => id ∉ draft.instructions := by
    intro list block inside
    refine List.filter_congr fun id member => ?_
    have old := fresh_of_blockOf? (orderly.linked.place (inside member))
    simp [old]
  constructor
  case linked => exact orderly.linked.insertAt _ _ _ _ _
  case stands =>
    intro key
    by_cases own : request.cursor = key
    · subst own
      refine ⟨Cursor.advance point ⟨draft.outcome.entries.size⟩, _, back, ?_,
        stands.advance _ _ _, ?_⟩
      · exact Function.update_self ..
      · rw [createdBy_grant, if_pos rfl]
        exact behind.append (List.Sublist.refl _)
    · obtain ⟨point', front', back', here', stands', behind'⟩ := orderly.stands key
      have unmoved : (draft.grant request point (home request.cursor) front.length).cursors key =
          ⟨some point'⟩ := (Function.update_of_ne (Ne.symm own) _ _).trans here'
      simp only [createdBy_grant, if_neg own, List.append_nil]
      by_cases shared : home key = home request.cursor
      · rw [shared] at stands' ⊢
        have isBlock : ((draft.grant request point (home request.cursor)
            front.length).outcome.block? (home request.cursor)).isSome := by
          rw [Draft.grant, isSome_block?_insertAt]
          exact stands.isBlock
        obtain ⟨front'', back'', stands'', more⟩ := stands'.shift stands.split isBlock moved
        exact ⟨point', front'', back'', unmoved, stands'', behind'.trans more⟩
      · exact ⟨point', front', back', unmoved, stands'.congr (same _ shared), behind'⟩
  case kept =>
    intro block
    rw [instructions_grant, ← orderly.kept block]
    by_cases changed : block = home request.cursor
    · have parts := stands.split
      rw [← changed] at parts
      have one : front ⊆ draft.outcome.instructionsOf block := by simp [parts]
      have other : back ⊆ draft.outcome.instructionsOf block := by simp [parts]
      rw [changed, Draft.grant, moved, stands.split, List.filter_append, List.filter_append,
        List.filter_cons_of_neg (by simp), unseen one, unseen other]
    · rw [instructionsOf_congr (same block changed), unseen (List.Subset.refl _)]
  case elsewhere =>
    intro block other
    rw [creators_grant] at other
    rw [same block (other _ (by simp)).symm]
    exact orderly.elsewhere block fun key used => other key (List.mem_append_left _ used)

/-! ### Runs -/

/-- A request is granted where its cursor stands, and refused for its operands only. -/
theorem Orderly.create (orderly : Orderly m home draft) (request : Request K) :
    ∃ point front back, draft.outcome.Stands point (home request.cursor) front back ∧
      (draft.createdBy request.cursor).Sublist front ∧
      draft.create request = (request.form.check draft.outcome).map fun _ =>
        draft.grant request point (home request.cursor) front.length := by
  obtain ⟨point, front, back, here, stands, behind⟩ := orderly.stands request.cursor
  exact ⟨point, front, back, stands, behind, create_eq orderly.linked here stands⟩

variable {requests : List (Request K)}

/-- **Any requests keep a draft orderly.** -/
theorem Orderly.createAll (orderly : Orderly m home draft)
    (success : draft.createAll requests = .ok next) :
    Orderly m home next ∧ next.created.map Prod.fst =
      draft.created.map Prod.fst ++ requests.map Request.cursor := by
  induction requests generalizing draft with
  | nil =>
    obtain rfl := Except.ok.inj success
    exact ⟨orderly, (List.append_nil _).symm⟩
  | cons request requests ih =>
    obtain ⟨between, first, rest⟩ := ok_of_bind success
    obtain ⟨point, front, back, stands, behind, granted⟩ := orderly.create request
    obtain ⟨_, _, rfl⟩ := ok_of_map (granted.symm.trans first)
    obtain ⟨kept, creators⟩ := ih (orderly.grant stands behind) rest
    refine ⟨kept, ?_⟩
    rw [creators, creators_grant, List.append_assoc, List.singleton_append, List.map_cons]

/-- The operands of one of the requests are refused, in the module that those before it have
built. -/
def Refused (draft : Draft K) (requests : List (Request K)) (fault : EditError) : Prop :=
  ∃ done request rest between, requests = done ++ request :: rest ∧
    draft.createAll done = .ok between ∧ request.form.check between.outcome = .error fault

/-- Requests fail only where the operands of one are refused. -/
theorem Orderly.refused {fault : EditError} (orderly : Orderly m home draft)
    (failure : draft.createAll requests = .error fault) : draft.Refused requests fault := by
  induction requests generalizing draft with
  | nil => cases failure
  | cons request requests ih =>
    obtain ⟨point, front, back, stands, behind, granted⟩ := orderly.create request
    rcases error_of_bind failure with first | ⟨between, first, rest⟩
    · refine ⟨[], request, requests, draft, rfl, rfl, ?_⟩
      rw [granted] at first
      cases checked : request.form.check draft.outcome with
      | error earlier =>
        rw [checked] at first
        exact congrArg Except.error (Except.error.inj first)
      | ok _ =>
        rw [checked] at first
        cases first
    · obtain ⟨_, _, rfl⟩ := ok_of_map (granted.symm.trans first)
      obtain ⟨done, last, others, final, rfl, ran, failed⟩ :=
        ih (orderly.grant stands behind) rest
      exact ⟨request :: done, last, others, final, rfl, (bind_of_ok first _).trans ran, failed⟩

/-- **One cursor on its own leaves a run behind**: nothing comes between what it creates. -/
theorem Orderly.contiguous (orderly : Orderly m home draft)
    (here : draft.cursors key = ⟨some point⟩)
    (stands : draft.outcome.Stands point (home key) (front ++ draft.createdBy key) back)
    (sole : ∀ request ∈ requests, request.cursor = key)
    (success : draft.createAll requests = .ok next) :
    next.outcome.instructionsOf (home key) = front ++ next.createdBy key ++ back := by
  induction requests generalizing draft point with
  | nil =>
    obtain rfl := Except.ok.inj success
    exact stands.split
  | cons request requests ih =>
    obtain ⟨rfl, sole⟩ := List.forall_mem_cons.mp sole
    obtain ⟨between, first, rest⟩ := ok_of_bind success
    obtain ⟨_, _, rfl⟩ := ok_of_map ((create_eq orderly.linked here stands).symm.trans first)
    refine ih (orderly.grant stands (List.sublist_append_right _ _)) (Function.update_self ..)
      ?_ sole rest
    rw [createdBy_grant, if_pos rfl, ← List.append_assoc]
    exact stands.advance _ _ _

/-! ### Program order -/

/-- **Program order**: what requests to cursors at certain points of certain blocks make of a
module. -/
structure InOrder (m : Module) (points : K → InsertionPoint) (home : K → ValueId)
    (requests : List (Request K)) (draft : Draft K) : Prop where
  /-- Each request has created an instruction. -/
  creators : draft.created.map Prod.fst = requests.map Request.cursor
  /-- What was in a block before is still there, in its old order. -/
  kept : ∀ block, ((draft.outcome.instructionsOf block).filter fun id => id ∉ draft.instructions) =
    m.instructionsOf block
  /-- A block without a cursor that has been used has not changed. -/
  elsewhere : ∀ block, (∀ request ∈ requests, home request.cursor ≠ block) →
    draft.outcome.block? block = m.block? block
  /-- What a cursor has created is in its block, in the order of creation. -/
  ordered : ∀ key, (draft.createdBy key).Sublist (draft.outcome.instructionsOf (home key))
  /-- What one cursor has created on its own stands together, where the cursor stood first. -/
  contiguous : ∀ key, (∀ request ∈ requests, request.cursor = key) →
    ∃ front back, m.Stands (points key) (home key) front back ∧
      draft.outcome.instructionsOf (home key) = front ++ draft.createdBy key ++ back

end Draft

namespace Module

variable {m : Module} {K : Type} [DecidableEq K]

/-- **Cursors keep program order**, wherever they stand and however their requests are interleaved.
The requests fail only if the operands of one are refused. -/
theorem Built.drafts_ordered (built : Built m) {points : K → InsertionPoint} {home : K → ValueId}
    (attached : ∀ key, (points key).Attached m (home key)) (requests : List (Request K)) :
    (∀ draft, (Draft.start m points).createAll requests = .ok draft →
      draft.InOrder m points home requests) ∧
    ∀ fault, (Draft.start m points).createAll requests = .error fault →
      (Draft.start m points).Refused requests fault := by
  have orderly := Draft.orderly_start built.linked built.listed attached
  refine ⟨fun draft success => ?_, fun fault failure => orderly.refused failure⟩
  obtain ⟨after, creators⟩ := orderly.createAll success
  have made : draft.created.map Prod.fst = requests.map Request.cursor := creators
  constructor
  case creators => exact made
  case kept => exact after.kept
  case elsewhere =>
    intro block other
    refine after.elsewhere block fun key used => ?_
    rw [made] at used
    obtain ⟨request, member, rfl⟩ := List.mem_map.mp used
    exact other request member
  case ordered =>
    intro key
    obtain ⟨point, front, back, _, stands, behind⟩ := after.stands key
    rw [stands.split]
    exact behind.trans (List.sublist_append_left front back)
  case contiguous =>
    intro key sole
    obtain ⟨front, back, stands⟩ := built.listed.exists_stands (attached key)
    refine ⟨front, back, stands, orderly.contiguous rfl ?_ sole success⟩
    exact (List.append_nil front).symm ▸ stands

/-- Two blocks, the first of them with two instructions. -/
def quireSteps : List Operation :=
  let alloc block := Operation.insert ⟨some (.finish block)⟩ (.alloc (.int 8)) ""
  [.addFunction ⟨[], .void, false⟩ "f", .addBlock ⟨0⟩ .finish "recto",
    .addBlock ⟨0⟩ .finish "verso", alloc ⟨1⟩, alloc ⟨1⟩, alloc ⟨2⟩]

def quire : Module := builtBy "quire" quireSteps

/-- Five cursors in the first block, three of them between its two instructions. -/
def pens : Fin 5 → InsertionPoint
  | 0 => .before ⟨4⟩
  | 1 => .before ⟨4⟩
  | 2 => .after ⟨3⟩
  | 3 => .start ⟨1⟩
  | 4 => .finish ⟨1⟩

def strokes (keys : List (Fin 5)) : List (Request (Fin 5)) :=
  keys.map fun key => ⟨key, .alloc (.int 8), ""⟩

/-- The cursors take turns, and what each of them creates stays in order; the first of them alone
leaves a run behind. -/
theorem drafts_ordered_quire : (∀ key, (pens key).Attached quire ⟨1⟩) ∧
    (∃ draft, (Draft.start quire pens).createAll (strokes [0, 1, 0, 2, 3, 4, 3, 2, 1, 4]) =
        .ok draft ∧
      draft.InOrder quire pens (fun _ => ⟨1⟩) (strokes [0, 1, 0, 2, 3, 4, 3, 2, 1, 4]) ∧
      draft.outcome.instructionsOf ⟨1⟩ =
        [⟨10⟩, ⟨12⟩, ⟨3⟩, ⟨9⟩, ⟨13⟩, ⟨6⟩, ⟨8⟩, ⟨7⟩, ⟨14⟩, ⟨4⟩, ⟨11⟩, ⟨15⟩]) ∧
    ∃ draft, (Draft.start quire pens).createAll (strokes [0, 0]) = .ok draft ∧
      draft.InOrder quire pens (fun _ => ⟨1⟩) (strokes [0, 0]) ∧
      draft.outcome.instructionsOf ⟨1⟩ = [⟨3⟩, ⟨6⟩, ⟨7⟩, ⟨4⟩] := by
  have attached : ∀ key, (pens key).Attached quire ⟨1⟩ := by decide +kernel
  have drafted : ∀ keys list, ((Draft.start quire pens).createAll (strokes keys)).toOption.map
        (fun draft => draft.outcome.instructionsOf ⟨1⟩) = some list →
      ∃ draft, (Draft.start quire pens).createAll (strokes keys) = .ok draft ∧
        draft.InOrder quire pens (fun _ => ⟨1⟩) (strokes keys) ∧
        draft.outcome.instructionsOf ⟨1⟩ = list := by
    intro keys list written
    have ordered := Built.drafts_ordered (built_builtBy "quire" quireSteps) attached (strokes keys)
    cases done : (Draft.start quire pens).createAll (strokes keys) with
    | error fault =>
      rw [done] at written
      cases written
    | ok draft =>
      rw [done] at written
      exact ⟨draft, rfl, ordered.1 draft done, Option.some.inj written⟩
  exact ⟨attached, drafted _ _ (by decide +kernel), drafted _ _ (by decide +kernel)⟩

end Module

end SsaAmd64
