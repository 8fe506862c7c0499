/-
**The code of an edge is one parallel assignment.**

Whatever the sizes of the phis and whichever phi is read by the copy into another, each phi takes the
bytes that its incoming value had before. Without a hazard no copy reads a slot that another writes;
with one, all values are read before the first slot is written.

* `Lowering.Assigned`: what the code of an edge is for;
* `Lowering.stagingArea`: the bytes below the frame that the code needs;
* `Lowering.Prepared.assigned`: the code of every edge does what it is for;
* `Module.compile_assignPhis`: it is part of the code of every module that compiles.
-/

import SsaAmd64.Proofs.Lowering.Incoming
import SsaAmd64.Proofs.Lowering.Places

namespace SsaAmd64

open Asm

namespace Lowering

variable {lowering : Lowering} {source target : ValueId} {machine before after : Machine}
variable {sized : List ((ValueId × ValueId) × Nat)} {lines : List Line} {parts : List (List Line)}

/-- **The phis of a block have taken the values that come in from another**, and above the bottom of
the frame nothing else has changed. A number of bytes below it may have been used. -/
structure Assigned (lowering : Lowering) (source target : ValueId) (room : Nat)
    (before after : Machine) : Prop where
  phis : ∀ phi ∈ lowering.subject.phisOf target, ∃ value start size origin,
    lowering.subject.ComesIn source phi value ∧ lowering.Placed phi start size ∧
    lowering.source value = .ok origin ∧
    after.memory.bytes (offset (before.registers .rbp) start) size = origin.bytes before size
  others : ∀ place : Nat, place + room < 0x10000000000000000 →
    (∀ phi ∈ lowering.subject.phisOf target, ∀ start size, lowering.Placed phi start size →
      ∀ index < size, offset (before.registers .rbp) start + BitVec.ofNat 64 index ≠
        offset (before.registers .rsp) place) →
    after.memory (offset (before.registers .rsp) place) =
      before.memory (offset (before.registers .rsp) place)
  bottom : after.registers .rsp = before.registers .rsp
  pointer : after.registers .rbp = before.registers .rbp

/-- The slots of all other values are as they were. -/
theorem Assigned.bytes_eq {room size : Nat} {id : ValueId} {start : Int}
    (assigned : lowering.Assigned source target room before after) (prepared : lowering.Prepared)
    (frame : lowering.AtFrame before room) (placed : lowering.Placed id start size)
    (other : id ∉ lowering.subject.phisOf target) :
    after.memory.bytes (offset (before.registers .rbp) start) size =
      before.memory.bytes (offset (before.registers .rbp) start) size := by
  have fits := frame.fits
  obtain ⟨place, address, inside⟩ :=
    placed.below prepared (List.length_replicate (a := (0 : UInt8))) (before.registers .rbp)
  rw [List.length_replicate] at inside
  refine Memory.bytes_congr fun index less => ?_
  have same : offset (before.registers .rbp) start + BitVec.ofNat 64 index =
      offset (before.registers .rsp) (place + index : Nat) := by
    rw [show offset (before.registers .rbp) start = _ from address, frame.bottom, offset_offset,
      Int.natCast_add, ← Int.add_assoc, offset_add_ofNat]
  rw [same]
  refine assigned.others (place + index) (by omega) fun phi listed start' size' slot index' less' => ?_
  rw [← same]
  refine slot.apart prepared placed (fun equal => other (equal ▸ listed)) (by omega) _ index' less'
    index less

/-- The bytes of the stack that the code of an edge uses below the frame. -/
def stagingArea (m : Module) (source target : ValueId) : Nat :=
  let copies := phiCopies m source target
  if isHazardous copies then
    roundUp (stage 0 (copies.map fun copy => (copy, Frame.bytesOf m copy.1))).2 16
  else 0

/-! ### Copies of an edge -/

/-- A copy of an edge: the slot of its phi, and where its value is read from. -/
structure Fills (lowering : Lowering) (copy : (ValueId × ValueId) × Nat) (start : Int)
    (origin : Source) : Prop where
  placed : lowering.Placed copy.1.1 start copy.2
  known : lowering.source copy.1.2 = .ok origin
  reads : lowering.Reads copy.1.2 origin
  sized : (lowering.subject.typeOf copy.1.2).size = .ok copy.2

theorem Prepared.exists_fills (prepared : lowering.Prepared)
    (inside : target ∈ lowering.subject.blocksOf lowering.function)
    (sizes : (phiCopies lowering.subject source target).mapM (fun copy => do
      return (copy, ← lowering.sizeOf copy.1)) = .ok sized) :
    ∀ copy ∈ sized, ∃ start origin, lowering.Fills copy start origin := by
  intro copy member
  have incoming := prepared.incoming_of_sized inside sizes copy member
  obtain ⟨start, size, placed⟩ := prepared.exists_placed incoming.home
  obtain ⟨origin, known, reads⟩ := incoming.read
  have same := sizeOf_of_sizes sizes copy member
  rw [placed.sizeOf_eq] at same
  obtain rfl := Except.ok.inj same
  exact ⟨start, origin, placed, known, reads, incoming.typed ▸ placed.sized⟩

/-- The bytes of the value of a copy. -/
def copied (lowering : Lowering) (machine : Machine) (copy : (ValueId × ValueId) × Nat) :
    List UInt8 :=
  lowering.bytesOf machine copy.1.2 copy.2

/-- What a copy writes: the bytes of its value, into the slot of its phi. -/
def assignment (lowering : Lowering) (machine : Machine) (copy : (ValueId × ValueId) × Nat) :
    Write :=
  ⟨offset (machine.registers .rbp) ((lowering.frame.slot? copy.1.1).getD 0),
    lowering.copied machine copy⟩

variable {copy : (ValueId × ValueId) × Nat} {start : Int} {origin : Source}

theorem Fills.copied_eq (fills : lowering.Fills copy start origin) (machine : Machine) :
    lowering.copied machine copy = origin.bytes machine copy.2 :=
  bytesOf_eq fills.known machine copy.2

theorem Fills.assignment_eq (fills : lowering.Fills copy start origin) (machine : Machine) :
    lowering.assignment machine copy =
      ⟨offset (machine.registers .rbp) start, origin.bytes machine copy.2⟩ := by
  rw [assignment, fills.copied_eq, fills.placed.slot]
  rfl

theorem Fills.length_copied (fills : lowering.Fills copy start origin) (machine : Machine) :
    (lowering.copied machine copy).length = copy.2 := by
  rw [fills.copied_eq, Source.length_bytes]

/-- Copies for different phis write apart from one another. -/
theorem Fills.apart {other : (ValueId × ValueId) × Nat} {start' : Int} {origin' : Source}
    (prepared : lowering.Prepared) (one : lowering.Fills copy start origin)
    (two : lowering.Fills other start' origin') (different : copy.1.1 ≠ other.1.1)
    (fits : lowering.frame.size ≤ 0x10000000000000000) (machine : Machine) :
    Apart (lowering.assignment machine copy).address
      (lowering.assignment machine copy).content.length
      (lowering.assignment machine other).address
      (lowering.assignment machine other).content.length := by
  rw [one.assignment_eq, two.assignment_eq]
  simp only [Source.length_bytes]
  exact one.placed.apart prepared two.placed different fits _

/-! ### Copies that do not disturb one another -/

/-- A value that no copy writes is as it was. -/
theorem Fills.bytes_eq (prepared : lowering.Prepared)
    (fills : lowering.Fills copy start origin)
    (all : ∀ copy ∈ sized, ∃ start origin, lowering.Fills copy start origin)
    (calm : ∀ other ∈ sized, other.1.1 ≠ copy.1.2)
    (fits : lowering.frame.size ≤ 0x10000000000000000) {earlier : List Write}
    (among : earlier ⊆ sized.map (lowering.assignment machine))
    (wrote : machine.Wrote [.rax] earlier after) :
    origin.bytes after copy.2 = origin.bytes machine copy.2 := by
  refine fills.reads.bytes_eq fills.sized wrote (by decide) fun place home write member => ?_
  obtain ⟨other, listed, rfl⟩ := List.mem_map.mp (among member)
  obtain ⟨start', origin', fills'⟩ := all other listed
  rw [Write.Misses, fills'.assignment_eq, Source.length_bytes]
  exact fills'.placed.apart prepared home (calm other listed) fits _

/-- **Copies of which none reads what another writes write all values.** -/
theorem wrote_copyDirectly (prepared : lowering.Prepared)
    (all : ∀ copy ∈ sized, ∃ start origin, lowering.Fills copy start origin)
    (calm : ∀ copy ∈ sized, ∀ other ∈ sized, other.1.1 ≠ copy.1.2)
    (fits : lowering.frame.size ≤ 0x10000000000000000)
    (code : lowering.copyDirectly sized = .ok lines) :
    ∃ next, executeAll lines machine = some next ∧
      machine.Wrote [.rax] (sized.map (lowering.assignment machine)) next := by
  obtain ⟨parts, codes, code⟩ := ok_of_bind code
  obtain rfl := Except.ok.inj code
  rw [List.map_eq_flatMap]
  refine Machine.Wrote.of_each (forall₂_of_mapM codes) _ ?_
  intro copy member lines part earlier between among wrote
  rw [← List.map_eq_flatMap] at among
  obtain ⟨start, origin, fills⟩ := all copy member
  have code : lowering.copyTo copy.1.2 .rbp start copy.2 = .ok lines := by
    have part : (do lowering.copyTo copy.1.2 .rbp (← lowering.slot copy.1.1) copy.2) = .ok lines :=
      part
    rwa [fills.placed.slot_eq] at part
  have same := fills.bytes_eq prepared all (calm copy member) fits among wrote
  have pointer := wrote.registers .rbp (by decide)
  rw [fills.assignment_eq, ← same, ← pointer]
  refine wrote_copyTo fills.known code (by decide) (fills.reads.copies fills.sized ?_)
  intro place home
  exact fills.placed.apart prepared home (calm copy member copy member) fits _

/-! ### Copies by way of the stack -/

/-- What is written on the stack for a copy. -/
def staging (lowering : Lowering) (machine : Machine) (bottom : BitVec 64) (copy : StagedCopy) :
    Write :=
  ⟨offset bottom copy.offset, lowering.copied machine copy.copied⟩

section Staging

variable {bottom : BitVec 64} {finish reserved : Nat} {staged : List StagedCopy}

/-- **All values are put on the stack.** -/
theorem wrote_reads (prepared : lowering.Prepared)
    (all : ∀ copy ∈ staged, ∃ start origin, lowering.Fills copy.copied start origin)
    (area : lowering.Area (machine.registers .rbp) bottom reserved finish)
    (foot : machine.registers .rsp = bottom) (layout : Staged 0 finish staged)
    (codes : List.Forall₂ (fun (copy : StagedCopy) lines =>
      lowering.copyTo copy.value .rsp (signed64 copy.offset) copy.size = .ok lines) staged parts) :
    ∃ next, executeAll parts.flatten machine = some next ∧
      machine.Wrote [.rax] (staged.map (lowering.staging machine bottom)) next := by
  rw [List.map_eq_flatMap]
  refine Machine.Wrote.of_each codes _ ?_
  intro copy member lines code earlier between among wrote
  rw [← List.map_eq_flatMap] at among
  obtain ⟨start, origin, fills⟩ := all copy member
  have inside := (layout.inside copy member).2
  have sized : copy.copied.2 = copy.size := rfl
  -- what has been put on the stack so far is not in the frame
  have same : origin.bytes between copy.size = origin.bytes machine copy.size := by
    refine fills.reads.bytes_eq fills.sized wrote (by decide) fun place home write listed => ?_
    obtain ⟨other, listed', rfl⟩ := List.mem_map.mp (among listed)
    obtain ⟨_, _, fills'⟩ := all other listed'
    have inside' := (layout.inside other listed').2
    have length : (lowering.staging machine bottom other).content.length = other.size :=
      fills'.length_copied machine
    rw [Write.Misses, length]
    exact area.apart prepared home inside'
  have place : offset (between.registers .rsp) (signed64 copy.offset) =
      offset bottom copy.offset := by
    rw [wrote.registers .rsp (by decide), foot, offset_signed64]
  have written : lowering.staging machine bottom copy =
      ⟨offset (between.registers .rsp) (signed64 copy.offset), origin.bytes between copy.size⟩ := by
    rw [staging, fills.copied_eq, place, sized, same]
  rw [written]
  refine wrote_copyTo fills.known code (by decide) (fills.reads.copies fills.sized ?_)
  intro start' home
  rw [place, wrote.registers .rbp (by decide)]
  exact area.apart prepared home inside

/-- **Values that are on the stack are written into the slots**, in any order. -/
theorem wrote_writes (prepared : lowering.Prepared)
    (all : ∀ copy ∈ staged, ∃ start origin, lowering.Fills copy.copied start origin)
    (area : lowering.Area (machine.registers .rbp) bottom reserved finish)
    (foot : machine.registers .rsp = bottom)
    (inside : ∀ copy ∈ staged, copy.offset + copy.size ≤ finish)
    (pointer : machine.registers .rbp = before.registers .rbp)
    (waiting : ∀ copy ∈ staged, machine.memory.bytes (offset bottom copy.offset) copy.size =
      lowering.copied before copy.copied)
    (codes : List.Forall₂ (fun copy lines => (do
      return copyMemory .rsp (signed64 copy.offset) .rbp (← lowering.slot copy.phi) copy.size) =
        .ok lines) staged parts) :
    ∃ next, executeAll parts.flatten machine = some next ∧
      machine.Wrote [.rax] (staged.map fun copy => lowering.assignment before copy.copied) next := by
  rw [List.map_eq_flatMap]
  refine Machine.Wrote.of_each codes _ ?_
  intro copy member lines code earlier between among wrote
  rw [← List.map_eq_flatMap] at among
  obtain ⟨start, origin, fills⟩ := all copy member
  obtain ⟨found, known, code⟩ := ok_of_bind code
  obtain rfl : start = found := Except.ok.inj (fills.placed.slot_eq.symm.trans known)
  obtain rfl := Except.ok.inj code
  -- what has been written so far is not on the stack
  have same : between.memory.bytes (offset bottom copy.offset) copy.size =
      machine.memory.bytes (offset bottom copy.offset) copy.size := by
    refine wrote.bytes_eq fun write listed => ?_
    obtain ⟨other, listed', rfl⟩ := List.mem_map.mp (among listed)
    obtain ⟨start', origin', fills'⟩ := all other listed'
    rw [Write.Misses, fills'.assignment_eq, Source.length_bytes, ← pointer]
    exact (area.apart prepared fills'.placed (inside copy member)).symm
  have place : offset (between.registers .rsp) (signed64 copy.offset) =
      offset bottom copy.offset := by
    rw [wrote.registers .rsp (by decide), foot, offset_signed64]
  have written : lowering.assignment before copy.copied =
      ⟨offset (between.registers .rbp) start,
        between.memory.bytes (offset (between.registers .rsp) (signed64 copy.offset)) copy.size⟩ := by
    rw [fills.assignment_eq, place, same, waiting copy member, fills.copied_eq,
      wrote.registers .rbp (by decide), pointer]
  rw [written]
  refine wrote_copyMemory between (by decide) (by decide) ?_
  rw [place, wrote.registers .rbp (by decide)]
  exact (area.apart prepared fills.placed (inside copy member)).symm

/-- What is put on the stack does not overlap. -/
theorem pairwise_staging
    (all : ∀ copy ∈ staged, ∃ start origin, lowering.Fills copy.copied start origin)
    (layout : Staged 0 finish staged) (fits : finish ≤ 0x10000000000000000) (machine : Machine)
    (bottom : BitVec 64) :
    (staged.map (lowering.staging machine bottom)).Pairwise fun first second =>
      Apart first.address first.content.length second.address second.content.length := by
  have length : ∀ copy ∈ staged, (lowering.staging machine bottom copy).content.length = copy.size := by
    intro copy member
    obtain ⟨start, origin, fills⟩ := all copy member
    exact fills.length_copied machine
  refine List.pairwise_map.mpr (layout.above.imp_of_mem fun first second above => ?_)
  rw [length _ first, length _ second]
  have inside := (layout.inside _ second).2
  exact apart_of_le (by omega) (by omega)

/-- **Copies by way of the stack write all values**, whatever reads what another writes. -/
theorem wrote_copyStaged (prepared : lowering.Prepared)
    (all : ∀ copy ∈ sized, ∃ start origin, lowering.Fills copy start origin)
    (frame : lowering.AtFrame machine (roundUp (stage 0 sized).2 16))
    (code : lowering.copyStaged sized = .ok lines) :
    ∃ next staged, executeAll lines machine = some next ∧
      machine.Wrote [.rax, .rsp] (staged ++ sized.reverse.map (lowering.assignment machine)) next ∧
      next.registers .rsp = machine.registers .rsp ∧
      ∀ write ∈ staged, ∃ place : Nat,
        write.address = offset (machine.registers .rbp)
          (-(lowering.frame.size : Int) - roundUp (stage 0 sized).2 16 + place) ∧
        place + write.content.length ≤ roundUp (stage 0 sized).2 16 := by
  have layout := staged_stage 0 sized
  have listed := map_copied_stage 0 sized
  rw [copyStaged] at code
  dsimp only at code
  generalize (stage 0 sized).1 = copies at layout listed code
  generalize (stage 0 sized).2 = finish at layout code frame
  obtain ⟨reads, reading, code⟩ := ok_of_bind code
  obtain ⟨writes, writing, code⟩ := ok_of_bind code
  obtain rfl := Except.ok.inj code
  subst listed
  have all : ∀ copy ∈ copies, ∃ start origin, lowering.Fills copy.copied start origin :=
    fun copy member => all copy.copied (List.mem_map_of_mem member)
  have enough : finish ≤ roundUp finish 16 := le_roundUp _ _
  generalize roundUp finish 16 = reserved at frame enough
  let bottom := offset (machine.registers .rbp) (-(lowering.frame.size : Int) - reserved)
  have area : lowering.Area (machine.registers .rbp) bottom reserved finish :=
    ⟨rfl, enough, frame.fits⟩
  -- the stack pointer goes below what is staged
  obtain ⟨lowered, down, foot, moved⟩ := wrote_sub machine (signed64 reserved)
  have foot : lowered.registers .rsp = bottom := by
    rw [foot, offset, BitVec.ofInt_neg, ofInt_signed64, ← BitVec.ofInt_neg, ← offset, frame.bottom,
      offset_offset]
    rfl
  have pointer : lowered.registers .rbp = machine.registers .rbp := moved.registers .rbp (by decide)
  have unchanged : ∀ copy ∈ copies,
      lowering.copied lowered copy.copied = lowering.copied machine copy.copied := by
    intro copy member
    obtain ⟨start, origin, fills⟩ := all copy member
    rw [fills.copied_eq, fills.copied_eq]
    exact fills.reads.bytes_eq fills.sized moved (by decide)
      fun _ _ _ none => absurd none List.not_mem_nil
  -- all values are read before one is written
  obtain ⟨between, ran, staged⟩ :=
    wrote_reads prepared all (pointer ▸ area) foot layout (forall₂_of_mapM reading)
  have pointer' := (staged.registers .rbp (by decide)).trans pointer
  have waiting : ∀ copy ∈ copies, between.memory.bytes (offset bottom copy.offset) copy.size =
      lowering.copied machine copy.copied := by
    intro copy member
    obtain ⟨start, origin, fills⟩ := all copy member
    have length : (lowering.staging lowered bottom copy).content.length = copy.size :=
      fills.length_copied lowered
    have inside := (layout.inside copy member).2
    have fits := frame.fits
    have back := Memory.bytes_writeAll lowered.memory (List.mem_map_of_mem member)
      (pairwise_staging all layout (Nat.le_trans enough (by omega)) lowered bottom)
      (show (lowering.staging lowered bottom copy).content.length ≤ _ by omega)
    rw [← staged.memory, length] at back
    exact back.trans (unchanged copy member)
  -- the slots are written from the stack
  obtain ⟨written, ran', homes⟩ := wrote_writes prepared
    (fun copy member => all copy (List.mem_reverse.mp member)) (pointer' ▸ area)
    ((staged.registers .rsp (by decide)).trans foot)
    (fun copy member => (layout.inside copy (List.mem_reverse.mp member)).2) pointer'
    (fun copy member => waiting copy (List.mem_reverse.mp member)) (forall₂_of_mapM writing)
  -- the stack pointer goes back
  obtain ⟨next, up, back, moved'⟩ := wrote_add written (signed64 reserved) .rsp
  have subset : [.rsp] ⊆ [Register.rax, .rsp] := by decide
  have subset' : [.rax] ⊆ [Register.rax, .rsp] := by decide
  have whole := ((moved.mono subset).trans (staged.mono subset')).trans
    ((homes.mono subset').trans (moved'.mono subset))
  rw [List.nil_append, List.append_nil] at whole
  refine ⟨next, copies.map (lowering.staging lowered bottom), ?_, ?_, ?_, ?_⟩
  · rw [← List.singleton_append]
    exact executeAll_append_of down (executeAll_append_of (executeAll_append_of ran ran') up)
  · rw [← List.map_reverse, List.map_map]
    exact whole
  · rw [back, offset_signed64, homes.registers .rsp (by decide), staged.registers .rsp (by decide),
      foot, frame.bottom, offset_offset, Int.sub_add_cancel]
  · intro write member
    obtain ⟨copy, listed, rfl⟩ := List.mem_map.mp member
    obtain ⟨start, origin, fills⟩ := all copy listed
    have length : (lowering.staging lowered bottom copy).content.length = copy.size :=
      fills.length_copied lowered
    refine ⟨copy.offset, offset_offset _ _ _, ?_⟩
    rw [length]
    exact Nat.le_trans (layout.inside copy listed).2 enough

end Staging

/-! ### Edges -/

/-- Copies for different phis write apart from one another. -/
theorem pairwise_assignment (prepared : lowering.Prepared)
    (all : ∀ copy ∈ sized, ∃ start origin, lowering.Fills copy start origin)
    (distinct : (sized.map fun copy => copy.1.1).Nodup)
    (fits : lowering.frame.size ≤ 0x10000000000000000) (machine : Machine) :
    (sized.map (lowering.assignment machine)).Pairwise fun first second =>
      Apart first.address first.content.length second.address second.content.length := by
  refine List.pairwise_map.mpr ((List.pairwise_map.mp distinct).imp_of_mem ?_)
  intro first second one two different
  obtain ⟨_, _, fills⟩ := all first one
  obtain ⟨_, _, fills'⟩ := all second two
  exact fills.apart prepared fills' different fits machine

/-- The copies of an edge are staged with the sizes of their phis. -/
theorem stagingArea_of_sizes
    (sizes : (phiCopies lowering.subject source target).mapM (fun copy => do
      return (copy, ← lowering.sizeOf copy.1)) = .ok sized)
    (hazard : isHazardous (phiCopies lowering.subject source target) = true) :
    stagingArea lowering.subject source target = roundUp (stage 0 sized).2 16 := by
  have same : sized.map (fun copy => (copy.1, Frame.bytesOf lowering.subject copy.1.1)) = sized := by
    refine (List.map_congr_left fun copy member => ?_).trans (List.map_id sized)
    rw [Frame.bytesOf, ok_of_mapError (sizeOf_of_sizes sizes copy member)]
    rfl
  rw [stagingArea, if_pos hazard, ← map_fst_of_sizes sizes, List.map_map]
  exact congrArg (fun sized => roundUp (stage 0 sized).2 16) same

/-- **When the bytes of all copies have been written**, in some order, and something on the stack
before, the phis are assigned. -/
theorem Prepared.assigned_of_wrote (prepared : lowering.Prepared)
    (inside : target ∈ lowering.subject.blocksOf lowering.function)
    (supplies : lowering.subject.Supplies source target)
    (sizes : (phiCopies lowering.subject source target).mapM (fun copy => do
      return (copy, ← lowering.sizeOf copy.1)) = .ok sized) {room : Nat}
    (frame : lowering.AtFrame machine room) {copies : List ((ValueId × ValueId) × Nat)}
    (order : copies.Perm sized) {staged : List Write} {scratch : List Register}
    (wrote : machine.Wrote scratch (staged ++ copies.map (lowering.assignment machine)) after)
    (kept : .rbp ∉ scratch) (bottom : after.registers .rsp = machine.registers .rsp)
    (below : ∀ write ∈ staged, ∃ place : Nat,
      write.address = offset (machine.registers .rbp)
        (-(lowering.frame.size : Int) - room + place) ∧
      place + write.content.length ≤ room) :
    lowering.Assigned source target room machine after := by
  have all := prepared.exists_fills inside sizes
  have phis : sized.map (fun copy => copy.1.1) = lowering.subject.phisOf target := by
    rw [← keys_phiCopies supplies, ← map_fst_of_sizes sizes, List.map_map]
    rfl
  have fits : lowering.frame.size ≤ 0x10000000000000000 :=
    Nat.le_trans (Nat.le_add_right _ _) frame.fits
  refine ⟨fun phi listed => ?_, fun place near other => ?_, bottom, wrote.registers .rbp kept⟩
  · obtain ⟨value, comes⟩ := supplies phi listed
    -- the value that comes in is that of the only copy for the phi
    have among : (phi, value) ∈ phiCopies lowering.subject source target := by
      rw [phiCopies_eq]
      refine List.mem_flatMap.mpr ⟨phi, (List.mem_filter.mp listed).1, ?_⟩
      rw [copiesOf_of_comesIn comes]
      exact List.mem_singleton.mpr rfl
    rw [← map_fst_of_sizes sizes] at among
    obtain ⟨copy, member, same⟩ := List.mem_map.mp among
    obtain ⟨start, origin, fills⟩ := all copy member
    have distinct : (copies.map fun copy => copy.1.1).Nodup := by
      rw [(order.map _).nodup_iff, phis]
      exact (prepared.accepted.built.linked.distinct target).filter _
    have written := Memory.bytes_writeAll (machine.memory.writeAll staged)
      (List.mem_map_of_mem (order.mem_iff.mpr member))
      (pairwise_assignment prepared (fun copy member => all copy (order.mem_iff.mp member)) distinct
        fits machine)
      (by
        rw [fills.assignment_eq, Source.length_bytes]
        exact Nat.le_trans (fills.placed.le_size prepared) fits)
    rw [← Memory.writeAll_append, ← wrote.memory, fills.assignment_eq, Source.length_bytes] at written
    obtain ⟨rfl, rfl⟩ : copy.1.1 = phi ∧ copy.1.2 = value := Prod.mk.inj same
    exact ⟨copy.1.2, start, copy.2, origin, comes, fills.placed, fills.known, written⟩
  · rw [wrote.memory]
    refine Memory.writeAll_of_misses fun write member => ?_
    rcases List.mem_append.mp member with low | slot
    · obtain ⟨position, address, short⟩ := below write low
      rw [Write.Misses, address, frame.bottom, offset_offset]
      exact apart_of_le (by omega) (by omega)
    · obtain ⟨copy, among, rfl⟩ := List.mem_map.mp slot
      have member := order.mem_iff.mp among
      obtain ⟨start, origin, fills⟩ := all copy member
      have phi : copy.1.1 ∈ lowering.subject.phisOf target := by
        rw [← phis]
        exact List.mem_map_of_mem member
      rw [Write.Misses, fills.assignment_eq, Source.length_bytes]
      intro index less last small
      obtain rfl : last = 0 := Nat.lt_one_iff.mp small
      rw [BitVec.add_zero]
      exact other _ phi start copy.2 fills.placed index less

/-- **The code of an edge is one parallel assignment of the phis of its target.** -/
theorem Prepared.assigned (prepared : lowering.Prepared)
    (inside : target ∈ lowering.subject.blocksOf lowering.function)
    (supplies : lowering.subject.Supplies source target)
    (frame : lowering.AtFrame machine (stagingArea lowering.subject source target))
    (code : lowering.assignPhis source target = .ok lines) :
    ∃ next, executeAll lines machine = some next ∧
      lowering.Assigned source target (stagingArea lowering.subject source target) machine next := by
  obtain ⟨sized, sizes, code⟩ := ok_of_bind code
  have all := prepared.exists_fills inside sizes
  split at code
  case isTrue hazard =>
    rw [stagingArea_of_sizes sizes hazard] at frame ⊢
    obtain ⟨next, staged, ran, wrote, bottom, below⟩ := wrote_copyStaged prepared all frame code
    exact ⟨next, ran, prepared.assigned_of_wrote inside supplies sizes frame (List.reverse_perm sized)
      wrote (by decide) bottom below⟩
  case isFalse calm =>
    have fits : lowering.frame.size ≤ 0x10000000000000000 :=
      Nat.le_trans (Nat.le_add_right _ _) frame.fits
    obtain ⟨next, ran, wrote⟩ : ∃ next, executeAll lines machine = some next ∧
        machine.Wrote [.rax] ([] ++ sized.map (lowering.assignment machine)) next :=
      wrote_copyDirectly prepared all (calm_of_not_isHazardous sizes calm) fits code
    exact ⟨next, ran, prepared.assigned_of_wrote inside supplies sizes frame (List.Perm.refl sized) wrote
      (by decide) (wrote.registers .rsp (by decide)) fun _ none => (nomatch none)⟩

end Lowering

end SsaAmd64
