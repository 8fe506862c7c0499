/-
**What comes in on an edge.**

The code of an edge copies, for each phi of its target, the value of the pair for its source. In an
accepted module a phi has one such pair, and its value has the type of the phi.

* `Lowering.Incoming`: a phi and the value that comes in for it;
* `Lowering.Prepared.incoming_of_mem`: only these are copied;
* `Module.ComesIn`: the value in the only pair for a block;
* `Module.Supplies`: a block with a value for each phi of another;
* `Lowering.Prepared.supplies`: so does each predecessor;
* `Lowering.keys_phiCopies`: then one value is copied for each phi of the target.
-/

import SsaAmd64.Proofs.Lowering.Edges
import SsaAmd64.Proofs.Lowering.Instructions

namespace SsaAmd64

/-- **The value that comes in for a phi from a block**, in the only pair for the block. -/
def Module.ComesIn (m : Module) (source phi value : ValueId) : Prop :=
  ∃ held, m.instruction? phi = some held ∧
    held.incoming.filter (fun pair => pair.2 = some source) = [(some value, some source)]

theorem Module.ComesIn.unique {m : Module} {source phi value other : ValueId}
    (comes : m.ComesIn source phi value) (comes' : m.ComesIn source phi other) : value = other := by
  obtain ⟨held, found, only⟩ := comes
  obtain ⟨held', found', only'⟩ := comes'
  obtain rfl := Option.some.inj (found.symm.trans found')
  simpa using only.symm.trans only'

theorem Module.ComesIn.exists_pair {m : Module} {source phi value : ValueId}
    (comes : m.ComesIn source phi value) :
    ∃ held, m.instruction? phi = some held ∧ (some value, some source) ∈ held.incoming := by
  obtain ⟨held, found, only⟩ := comes
  exact ⟨held, found, List.mem_of_mem_filter (only ▸ List.mem_singleton_self _)⟩

/-- **A block with a value for each phi of another.** -/
def Module.Supplies (m : Module) (source target : ValueId) : Prop :=
  ∀ phi ∈ m.phisOf target, ∃ value, m.ComesIn source phi value

/-- Only a phi has incoming pairs. -/
theorem Instruction.opcode_of_incoming {held : Instruction} {pair : Slot × Slot}
    (member : pair ∈ held.incoming) : ∃ type, held.opcode = .phi type := by
  rw [Instruction.incoming] at member
  cases kind : held.opcode with
  | phi type => exact ⟨type, rfl⟩
  | _ =>
    rw [kind] at member
    cases member

namespace Lowering

variable {lowering : Lowering} {source target phi value : ValueId}

/-- **A phi of a block, and the value that comes in for it from a block.** -/
structure Incoming (lowering : Lowering) (source target phi value : ValueId) : Prop where
  listed : phi ∈ lowering.subject.instructionsOf target
  pair : ∃ held, lowering.subject.instruction? phi = some held ∧
    (some value, some source) ∈ held.incoming
  home : phi ∈ Frame.homes lowering.subject lowering.function
  typed : lowering.subject.typeOf value = lowering.subject.typeOf phi
  read : lowering.IsRead value

theorem copyOf_eq_some_iff {pair : Slot × Slot} {copy : ValueId × ValueId} :
    copyOf source phi pair = some copy ↔ copy.1 = phi ∧ pair = (some copy.2, some source) := by
  obtain ⟨_ | value, _ | block⟩ := pair <;> simp only [copyOf, reduceCtorEq, Prod.mk.injEq,
    Option.some.injEq, false_and, and_false]
  split <;> simp_all [Prod.ext_iff, eq_comm]

/-- What comes in is what is copied. -/
theorem copiesOf_of_comesIn {m : Module} (comes : m.ComesIn source phi value) :
    copiesOf m source phi = [(phi, value)] := by
  obtain ⟨held, found, only⟩ := comes
  rw [copiesOf, found]
  show held.incoming.filterMap (copyOf source phi) = _
  rw [filterMap_copyOf, only]
  simp [copyOf]

namespace Prepared

/-- What is in a pair of a phi comes in for it. -/
theorem incoming (prepared : lowering.Prepared) {held : Instruction}
    (inside : target ∈ lowering.subject.blocksOf lowering.function)
    (listed : phi ∈ lowering.subject.instructionsOf target)
    (found : lowering.subject.instruction? phi = some held)
    (pair : (some value, some source) ∈ held.incoming) :
    lowering.Incoming source target phi value := by
  have member : phi ∈ lowering.subject.bodyOf lowering.function :=
    List.mem_flatMap.mpr ⟨target, inside, listed⟩
  obtain ⟨type, kind⟩ := Instruction.opcode_of_incoming pair
  obtain ⟨block, position, accepts⟩ := prepared.accepted.accepts member found
  obtain ⟨pairs, shape, _, _, all⟩ := accepts.pairs kind
  rw [shape] at pair
  obtain ⟨⟨value', source'⟩, among, same⟩ := List.mem_map.mp pair
  obtain ⟨rfl, rfl⟩ : value' = value ∧ source' = source := by simpa using same
  have typed : type = lowering.subject.typeOf value' := (all _ among).typed
  have typed' : lowering.subject.typeOf phi = type := Module.typeOf_phi found kind
  have present : lowering.subject.typeOf phi ≠ .void := by
    have sound := accepts.phi kind
    rw [typed']
    rintro rfl
    cases sound
  have home := prepared.home_of_typeOf member present
  obtain ⟨displacement, size, slot, sized⟩ := prepared.exists_slot home
  have ordinary : lowering.subject.typeOf phi ≠ .label := fun label => by
    rw [label] at sized
    cases sized
  have same : lowering.subject.typeOf value' = lowering.subject.typeOf phi := by rw [typed', typed]
  rw [← shape] at pair
  exact ⟨listed, ⟨held, found, pair⟩, home, same, prepared.source_of_operand member found
    (Module.mem_values_of_incoming pair rfl) (same ▸ present) (same ▸ ordinary)⟩

/-- **Only what comes in is copied.** -/
theorem incoming_of_mem (prepared : lowering.Prepared)
    (inside : target ∈ lowering.subject.blocksOf lowering.function)
    (copied : (phi, value) ∈ phiCopies lowering.subject source target) :
    lowering.Incoming source target phi value := by
  rw [phiCopies_eq] at copied
  obtain ⟨phi', listed, copied⟩ := List.mem_flatMap.mp copied
  rw [copiesOf] at copied
  split at copied
  case h_1 held found =>
    obtain ⟨pair, among, same⟩ := List.mem_filterMap.mp copied
    obtain ⟨rfl, rfl⟩ := copyOf_eq_some_iff.mp same
    exact prepared.incoming inside listed found among
  case h_2 => cases copied

/-- The copies of an edge, once their sizes are known. -/
theorem incoming_of_sized (prepared : lowering.Prepared)
    (inside : target ∈ lowering.subject.blocksOf lowering.function)
    {sized : List ((ValueId × ValueId) × Nat)}
    (sizes : (phiCopies lowering.subject source target).mapM (fun copy => do
      return (copy, ← lowering.sizeOf copy.1)) = .ok sized) :
    ∀ copy ∈ sized, lowering.Incoming source target copy.1.1 copy.1.2 := by
  intro copy member
  refine prepared.incoming_of_mem inside ?_
  rw [← map_fst_of_sizes sizes]
  exact List.mem_map_of_mem member

/-- A pair of a phi is the only one for its source. -/
theorem comesIn (prepared : lowering.Prepared) {held : Instruction}
    (member : phi ∈ lowering.subject.bodyOf lowering.function)
    (found : lowering.subject.instruction? phi = some held)
    (pair : (some value, some source) ∈ held.incoming) :
    lowering.subject.ComesIn source phi value := by
  obtain ⟨type, kind⟩ := Instruction.opcode_of_incoming pair
  obtain ⟨block, position, accepts⟩ := prepared.accepted.accepts member found
  obtain ⟨pairs, shape, distinct, _, _⟩ := accepts.pairs kind
  refine ⟨held, found, ?_⟩
  rw [shape] at pair ⊢
  obtain ⟨⟨value', source'⟩, among, same⟩ := List.mem_map.mp pair
  obtain ⟨rfl, rfl⟩ : value' = value ∧ source' = source := by simpa using same
  exact Module.filter_origin distinct among

/-- **Every predecessor of a block has a value for each of its phis.** -/
theorem supplies (prepared : lowering.Prepared)
    (inside : target ∈ lowering.subject.blocksOf lowering.function)
    (edge : source ∈ (Cfg.of lowering.subject lowering.function).predecessors target) :
    lowering.subject.Supplies source target := by
  intro phi member
  obtain ⟨listed, isPhi⟩ := List.mem_filter.mp member
  have member : phi ∈ lowering.subject.bodyOf lowering.function :=
    List.mem_flatMap.mpr ⟨target, inside, listed⟩
  obtain ⟨held, found⟩ := prepared.accepted.instruction? member
  obtain ⟨type, kind⟩ : ∃ type, held.opcode = .phi type := by
    rw [Module.hasOpcode, Module.opcode?, found] at isPhi
    cases kind : held.opcode with
    | phi type => exact ⟨type, rfl⟩
    | _ =>
      rw [Option.map_some, kind] at isPhi
      cases isPhi
  obtain ⟨position, place⟩ := List.mem_iff_getElem?.mp listed
  have accepts := Module.accepts_of_validate prepared.accepted.valid prepared.accepted.member inside
    place found
  obtain ⟨pairs, shape, _, covers, _⟩ := accepts.pairs kind
  obtain ⟨⟨value, origin⟩, among, rfl⟩ := List.mem_map.mp (covers source edge)
  refine ⟨value, prepared.comesIn member found ?_⟩
  rw [shape]
  exact List.mem_map_of_mem among

end Prepared

/-- **The copies of an edge are for the phis of its target**, in order. -/
theorem keys_phiCopies {m : Module} (supplies : m.Supplies source target) :
    (phiCopies m source target).map Prod.fst = m.phisOf target := by
  rw [Module.Supplies, Module.phisOf] at supplies
  rw [phiCopies_eq, Module.phisOf]
  generalize m.instructionsOf target = ids at supplies
  induction ids with
  | nil => rfl
  | cons id ids ih =>
    rw [List.flatMap_cons, List.map_append]
    cases isPhi : m.hasOpcode Opcode.isPhi id with
    | false =>
      rw [List.filter_cons_of_neg (by simp [isPhi])] at supplies ⊢
      rw [copiesOf_of_not_phi isPhi, ih supplies]
      rfl
    | true =>
      rw [List.filter_cons_of_pos isPhi] at supplies ⊢
      obtain ⟨⟨value, comes⟩, supplies⟩ := List.forall_mem_cons.mp supplies
      rw [copiesOf_of_comesIn comes, ih supplies]
      rfl

end Lowering

end SsaAmd64
