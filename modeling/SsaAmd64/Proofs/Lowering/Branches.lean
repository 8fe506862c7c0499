/-
**Control.**

The machine stands where the interpreter does when the code that is left to run is that of the
instructions that remain, all computed values are in their home slots, and the stack pointer is at
the bottom of the frame. A branch leads from there to where the interpreter enters the target.

* `Module.Taken`: the values that the interpreter gives to phis are those that come in;
* `Lowering.Represents.assign`: so slots that have been assigned in parallel hold them;
* `Lowering.Simulates`: a machine that stands where an interpretation does;
* `Lowering.Reaches`: a machine that gets to where the interpreter does;
* `Lowering.reaches_of_edge`: the code of an edge;
* `Lowering.reaches_of_branchIf`: the code of a conditional branch.
-/

import SsaAmd64.Proofs.Lowering.Operations
import SsaAmd64.Proofs.Lowering.Parallel

namespace SsaAmd64

/-- **Values for the phis of a block**, those that come in for them from another. -/
structure Module.Taken (m : Module) (env : Env) (source target : ValueId)
    (values : List (ValueId × Nat)) : Prop where
  keys : values.map Prod.fst = m.phisOf target
  comes : ∀ taken ∈ values, ∃ value, m.ComesIn source taken.1 value ∧
    m.valueIn env value = some taken.2

theorem Module.Taken.supplies {m : Module} {env : Env} {source target : ValueId}
    {values : List (ValueId × Nat)} (taken : m.Taken env source target values) :
    m.Supplies source target := by
  intro phi member
  rw [← taken.keys] at member
  obtain ⟨entry, listed, rfl⟩ := List.mem_map.mp member
  exact (taken.comes entry listed).imp fun _ => And.left

namespace Lowering

open Asm

variable {lowering : Lowering} {base : BitVec 64} {env : Env} {machine : Machine}
variable {id source target block : ValueId} {held : Instruction} {config : Config}
variable {outcome : Outcome} {program lines : List Line} {running : Running}
variable {values : List (ValueId × Nat)}

/-! ### What an edge assigns -/

/-- The interpreter takes the value that comes in. -/
theorem Prepared.comesIn_of_incomingIn (prepared : lowering.Prepared)
    (member : id ∈ lowering.subject.bodyOf lowering.function) {taken : ValueId × Nat}
    (computed : lowering.subject.incomingIn env source id = some taken) :
    taken.1 = id ∧ ∃ value, lowering.subject.ComesIn source taken.1 value ∧
      lowering.subject.valueIn env value = some taken.2 := by
  obtain ⟨held, found, computed⟩ := Option.bind_eq_some_iff.mp computed
  obtain ⟨⟨slot, origin⟩, first, computed⟩ := Option.bind_eq_some_iff.mp computed
  obtain ⟨value, filled, computed⟩ := Option.bind_eq_some_iff.mp computed
  obtain ⟨number, known, computed⟩ := Option.bind_eq_some_iff.mp computed
  obtain rfl := Option.some.inj computed
  obtain rfl : slot = some value := filled
  obtain rfl : origin = some source := by simpa using List.find?_some first
  exact ⟨rfl, value, prepared.comesIn member found (List.mem_of_find?_eq_some first), known⟩

/-- The interpreter takes, for phis in order, the values that come in. -/
theorem Prepared.comesIn_of_mapM (prepared : lowering.Prepared) {phis : List ValueId}
    (members : ∀ phi ∈ phis, phi ∈ lowering.subject.bodyOf lowering.function)
    (computed : phis.mapM (lowering.subject.incomingIn env source) = some values) :
    values.map Prod.fst = phis ∧ ∀ taken ∈ values, ∃ value,
      lowering.subject.ComesIn source taken.1 value ∧
      lowering.subject.valueIn env value = some taken.2 := by
  induction phis generalizing values with
  | nil =>
    obtain rfl := Option.some.inj computed
    exact ⟨rfl, List.forall_mem_nil _⟩
  | cons phi phis ih =>
    rw [List.mapM_cons] at computed
    obtain ⟨taken, here, computed⟩ := Option.bind_eq_some_iff.mp computed
    obtain ⟨others, later, computed⟩ := Option.bind_eq_some_iff.mp computed
    obtain rfl := Option.some.inj computed
    have first := prepared.comesIn_of_incomingIn (members phi List.mem_cons_self) here
    have rest := ih (fun phi listed => members phi (List.mem_cons_of_mem _ listed)) later
    exact ⟨congrArg₂ List.cons first.1 rest.1, List.forall_mem_cons.mpr ⟨first.2, rest.2⟩⟩

/-- **The interpreter gives the phis of a block the values that come in.** -/
theorem Prepared.taken (prepared : lowering.Prepared)
    (inside : target ∈ lowering.subject.blocksOf lowering.function)
    (computed : (lowering.subject.phisOf target).mapM (lowering.subject.incomingIn env source) =
      some values) : lowering.subject.Taken env source target values := by
  obtain ⟨keys, comes⟩ := prepared.comesIn_of_mapM (fun phi listed =>
    List.mem_flatMap.mpr ⟨target, inside, (List.mem_filter.mp listed).1⟩) computed
  exact ⟨keys, comes⟩

/-- **Slots that have been assigned in parallel hold what the interpreter gives to the phis.** -/
theorem Represents.assign (represents : lowering.Represents base env machine)
    (setting : lowering.Integral)
    (inside : target ∈ lowering.subject.blocksOf lowering.function)
    (taken : lowering.subject.Taken env source target values) {room : Nat} {next : Machine}
    (frame : lowering.AtFrame machine room)
    (assigned : lowering.Assigned source target room machine next) :
    lowering.Represents base (env.assign values) next := by
  refine .of_bytes (assigned.pointer.trans represents.pointer) fun id number computed => ?_
  rw [Env.assign] at computed
  cases found : values.lookup id with
  | some number' =>
    rw [found] at computed
    obtain rfl := Option.some.inj computed
    obtain ⟨value, comes, known⟩ := taken.comes _ (mem_of_lookup found)
    have phi : id ∈ lowering.subject.phisOf target :=
      taken.keys ▸ List.mem_map_of_mem (mem_of_lookup found)
    obtain ⟨value', start, size, origin, comes', placed, read, written⟩ := assigned.phis id phi
    obtain rfl := comes.unique comes'
    -- the phi and what comes in for it are integers of the same width
    obtain ⟨held, content, pair⟩ := comes.exists_pair
    have incoming := setting.incoming inside (List.mem_filter.mp phi).1 content pair
    obtain ⟨bits, start', home⟩ := setting.exists_home incoming.home
    obtain rfl : start' = start := Option.some.inj (home.slot.symm.trans placed.slot)
    obtain rfl : size = (Width.holding bits).bytes := placed.size_eq home.placed.sized
    have typed := incoming.typed.trans home.typed
    refine ⟨bits, start', home, (represents.found known typed home.wide).1, ?_⟩
    rw [← represents.pointer, written, represents.bytes_eq known typed home.wide read]
  | none =>
    rw [found] at computed
    obtain ⟨bits, start, home, fits, image⟩ := represents.bytes_of_slot computed
    have other : id ∉ lowering.subject.phisOf target := by
      rw [← taken.keys]
      intro member
      obtain ⟨entry, listed, rfl⟩ := List.mem_map.mp member
      have missing := List.lookup_eq_none_iff.mp found entry listed
      simp at missing
    refine ⟨bits, start, home, fits, ?_⟩
    rw [← image, ← represents.pointer]
    exact assigned.bytes_eq setting.toPrepared frame home.placed other

/-- The phis of a block are few, and small in a function of integers. -/
theorem Integral.stagingArea_le (setting : lowering.Integral)
    (inside : target ∈ lowering.subject.blocksOf lowering.function)
    (supplies : lowering.subject.Supplies source target) :
    stagingArea lowering.subject source target ≤ 0x1000000010 := by
  have keys := keys_phiCopies supplies
  have few : (phiCopies lowering.subject source target).length ≤ 0x100000000 := by
    have subset : lowering.subject.phisOf target ⊆ Frame.homes lowering.subject lowering.function := by
      intro phi member
      obtain ⟨value, comes⟩ := supplies phi member
      obtain ⟨held, content, pair⟩ := comes.exists_pair
      exact (setting.incoming inside (List.mem_filter.mp member).1 content pair).home
    have fewer := ((setting.linked.distinct target).filter _).length_le_of_subset subset
    rw [← List.length_map Prod.fst, keys]
    exact Nat.le_trans fewer setting.length_homes_le
  have small : ∀ copy ∈ (phiCopies lowering.subject source target).map fun copy =>
      (copy, Frame.bytesOf lowering.subject copy.1), copy.2 ≤ 8 := by
    intro copy member
    obtain ⟨⟨phi, value⟩, listed, rfl⟩ := List.mem_map.mp member
    obtain ⟨bits, start, home⟩ := setting.exists_home (setting.incoming_of_mem inside listed).home
    show (lowering.subject.typeOf phi).size.toOption.getD 0 ≤ 8
    rw [home.placed.sized]
    exact bytes_holding_le bits
  have staged := stage_le 0 small
  rw [List.length_map] at staged
  unfold stagingArea
  dsimp only
  split
  · have rounded := roundUp_le (stage 0 ((phiCopies lowering.subject source target).map fun copy =>
      (copy, Frame.bytesOf lowering.subject copy.1))).2 16
    omega
  · exact Nat.zero_le _

/-- **The code of an edge gives the phis of its target the values that come in from its source.** -/
theorem executeAll_assignPhis (setting : lowering.Integral)
    (represents : lowering.Represents base env machine)
    (foot : machine.registers .rsp = offset base (-(lowering.frame.size : Int)))
    (inside : target ∈ lowering.subject.blocksOf lowering.function)
    (computed : (lowering.subject.phisOf target).mapM (lowering.subject.incomingIn env source) =
      some values)
    (code : lowering.assignPhis source target = .ok lines) :
    ∃ next, executeAll lines machine = some next ∧
      lowering.Represents base (env.assign values) next ∧
      next.registers .rsp = machine.registers .rsp := by
  have taken := setting.taken inside computed
  have frame : lowering.AtFrame machine (stagingArea lowering.subject source target) := by
    refine ⟨by rw [foot, represents.pointer], ?_⟩
    have size := setting.size_le
    have area := setting.stagingArea_le inside taken.supplies
    omega
  obtain ⟨next, ran, assigned⟩ := setting.assigned inside taken.supplies frame code
  exact ⟨next, ran, represents.assign setting inside taken frame assigned, assigned.bottom⟩

/-! ### Simulation -/

/-- **A machine that stands where an interpretation does.** -/
structure Simulates (lowering : Lowering) (program : List Line) (base : BitVec 64)
    (config : Config) (running : Running) : Prop where
  represents : lowering.Represents base config.env running.2
  foot : running.2.registers .rsp = offset base (-(lowering.frame.size : Int))
  inside : config.block ∈ lowering.subject.blocksOf lowering.function
  remains : config.rest <:+ lowering.subject.instructionsOf config.block
  code : ∃ next code last before behind,
    lowering.instructions next config.block config.rest = .ok (code, last) ∧
      running.1 = code ++ behind ∧ program = before ++ running.1

/-- Where a machine stands after what the interpreter has done. A result is in `%rax`. -/
def Follows (lowering : Lowering) (program : List Line) (base : BitVec 64) :
    Outcome → Running → Prop
  | .running config, running => lowering.Simulates program base config running
  | .returned value, running =>
    ∃ rest, running.1 = .ret :: rest ∧ (running.2.registers .rax).toNat = value

/-- **The machine gets to where the interpreter does.** -/
def Reaches (lowering : Lowering) (program : List Line) (base : BitVec 64) (running : Running)
    (outcome : Outcome) : Prop :=
  ∃ next, Steps program running next ∧ lowering.Follows program base outcome next

theorem Reaches.after {first : Running} (steps : Steps program first running)
    (reaches : lowering.Reaches program base running outcome) :
    lowering.Reaches program base first outcome := by
  obtain ⟨next, later, follows⟩ := reaches
  exact ⟨next, steps.trans later, follows⟩

/-! ### Edges -/

/-- **The code of an edge leads to where the interpreter enters the target.** -/
theorem reaches_of_edge (setting : lowering.Integral) (hosts : lowering.Hosts program)
    (represents : lowering.Represents base env machine)
    (foot : machine.registers .rsp = offset base (-(lowering.frame.size : Int)))
    (inside : target ∈ lowering.subject.blocksOf lowering.function)
    (entered : lowering.subject.enter env source target = some outcome)
    (code : lowering.edge source target = .ok lines) (rest : List Line) :
    lowering.Reaches program base (lines ++ rest, machine) outcome := by
  rw [Module.enter] at entered
  split at entered
  case isFalse => cases entered
  case isTrue =>
    obtain ⟨values, computed, entered⟩ := Option.bind_eq_some_iff.mp entered
    obtain rfl := Option.some.inj entered
    obtain ⟨assign, codeAssign, code⟩ := ok_of_bind code
    obtain rfl := Except.ok.inj code
    obtain ⟨next, assigns, represents', kept⟩ :=
      executeAll_assignPhis setting represents foot inside computed codeAssign
    obtain ⟨start, body, last, before, behind, made, found, place⟩ := hosts.enter inside
    refine ⟨(body ++ behind, next), ?_, represents', ?_, inside, List.suffix_refl _,
      start, body, last, before, behind, made, rfl, place⟩
    · rw [List.append_assoc]
      exact (Steps.of_executeAll assigns).trans (.head (step_jump found) (.refl _))
    · exact kept.trans foot

/-! ### Conditions -/

/-- The flags tell whether a condition is zero. -/
theorem executeAll_test {condition : ValueId} {number : Nat}
    (represents : lowering.Represents base env machine)
    (code : lowering.loadInt condition .rax false = .ok lines)
    (computed : lowering.subject.valueIn env condition = some number)
    (typed : lowering.subject.typeOf condition = .int 1) :
    ∃ next flags,
      executeAll (lines ++ [.arithmetic .test .quad (.full .rax) (.full .rax)]) machine =
        some next ∧
      next.flags = some flags ∧ flags.zero = decide (number = 0) ∧
      Machine.SameExcept [.rax] machine next := by
  have wide : 1 ∈ registerWidths := by decide
  obtain ⟨loaded, loads, inRax, same⟩ := executeAll_loadInt represents code computed typed wide
  have fits := (represents.found computed typed wide).1
  let tested := loaded.registers .rax &&& loaded.registers .rax
  have tests : executeAll [.arithmetic .test .quad (.full .rax) (.full .rax)] loaded =
      some (loaded.setFlags (some (.ofLogic tested))) := by
    have value : loaded.read .quad (.full .rax) = loaded.registers .rax := loaded.read_full .rax
    rw [executeAll_singleton, execute, Machine.arithmetic, value]
    rfl
  refine ⟨_, _, executeAll_append_of loads tests, rfl, ?_, same.setFlags _⟩
  show decide (tested = 0) = _
  have value : tested.toNat = number := by
    show (loaded.registers .rax &&& loaded.registers .rax).toNat = number
    rw [BitVec.and_self, inRax, toNat_extended (by decide), BitVec.toNat_ofNat,
      Nat.mod_eq_of_lt fits]
  refine decide_eq_decide.mpr ⟨fun zero => ?_, fun zero => ?_⟩
  · rw [← value, zero]
    rfl
  · exact BitVec.eq_of_toNat_eq (value.trans zero)

/-- The interpreter gives no values to the phis of a block to which nothing is copied. -/
theorem eq_nil_of_phiCopies_isEmpty (prepared : lowering.Prepared)
    (inside : target ∈ lowering.subject.blocksOf lowering.function)
    (none : (phiCopies lowering.subject source target).isEmpty = true)
    (computed : (lowering.subject.phisOf target).mapM (lowering.subject.incomingIn env source) =
      some values) : values = [] := by
  have taken := prepared.taken inside computed
  have keys := taken.keys
  rw [← keys_phiCopies taken.supplies, List.isEmpty_iff.mp none] at keys
  exact List.map_eq_nil_iff.mp keys

/-- **Without phis to assign a jump to the target is enough.** -/
theorem reaches_of_jump (setting : lowering.Integral) (hosts : lowering.Hosts program)
    (represents : lowering.Represents base env machine)
    (foot : machine.registers .rsp = offset base (-(lowering.frame.size : Int)))
    (inside : target ∈ lowering.subject.blocksOf lowering.function)
    (none : (phiCopies lowering.subject source target).isEmpty = true)
    (entered : lowering.subject.enter env source target = some outcome) :
    ∃ code, goto (lowering.label target) program = some code ∧
      lowering.Reaches program base (code, machine) outcome := by
  rw [Module.enter] at entered
  split at entered
  case isFalse => cases entered
  case isTrue =>
    obtain ⟨values, computed, entered⟩ := Option.bind_eq_some_iff.mp entered
    obtain rfl := Option.some.inj entered
    obtain rfl := eq_nil_of_phiCopies_isEmpty setting.toPrepared inside none computed
    obtain ⟨start, body, last, before, behind, made, found, place⟩ := hosts.enter inside
    exact ⟨_, found, _, .refl _, represents, foot, inside, List.suffix_refl _,
      start, body, last, before, behind, made, rfl, place⟩

/-- **The code of a conditional branch**: the test of the condition, a jump, the edge to the false
target, and the edge to the true target if it needs one of its own. -/
structure BranchCode (lowering : Lowering) (block id condition ifTrue ifFalse : ValueId)
    (load falseEdge more : List Line) (label : String) : Prop where
  codeTrue : lowering.target id 1 = .ok ifTrue
  codeFalse : lowering.target id 2 = .ok ifFalse
  loads : lowering.loadInt condition .rax false = .ok load
  edgeFalse : lowering.edge block ifFalse = .ok falseEdge
  edgeTrue :
    (phiCopies lowering.subject block ifTrue).isEmpty = true ∧ label = lowering.label ifTrue ∨
      ∃ trueEdge, lowering.edge block ifTrue = .ok trueEdge ∧ more = .label label :: trueEdge

theorem branchCode_of_branchIf {condition : ValueId} {next last : Nat}
    (filled : lowering.subject.operand? id 0 = some condition)
    (code : lowering.branchIf next block id = .ok (lines, last)) :
    ∃ ifTrue ifFalse load falseEdge more label,
      lowering.BranchCode block id condition ifTrue ifFalse load falseEdge more label ∧
      lines = load ++ [.arithmetic .test .quad (.full .rax) (.full .rax)] ++
        .jumpIf .notEqual label :: (falseEdge ++ more) := by
  rw [branchIf, filled] at code
  obtain ⟨ifTrue, codeTrue, code⟩ := ok_of_bind code
  obtain ⟨ifFalse, codeFalse, code⟩ := ok_of_bind code
  obtain ⟨load, loads, code⟩ := ok_of_bind code
  obtain ⟨falseEdge, edgeFalse, code⟩ := ok_of_bind code
  split at code
  case isTrue none =>
    cases code
    refine ⟨ifTrue, ifFalse, load, falseEdge, [], _,
      ⟨codeTrue, codeFalse, loads, edgeFalse, .inl ⟨none, rfl⟩⟩, ?_⟩
    rw [List.append_nil]
  case isFalse =>
    obtain ⟨trueEdge, edgeTrue, code⟩ := ok_of_bind code
    cases code
    refine ⟨ifTrue, ifFalse, load, falseEdge, _, lowering.options.platform.label next,
      ⟨codeTrue, codeFalse, loads, edgeFalse, .inr ⟨trueEdge, edgeTrue, rfl⟩⟩, ?_⟩
    simp only [List.append_assoc, List.cons_append]

/-- **The code of a conditional branch leads to where the interpreter enters the target** that the
condition selects. -/
theorem reaches_of_branchIf {condition : ValueId} {number next last : Nat}
    {before rest : List Line} (setting : lowering.Integral) (hosts : lowering.Hosts program)
    (represents : lowering.Represents base env machine)
    (foot : machine.registers .rsp = offset base (-(lowering.frame.size : Int)))
    (member : id ∈ lowering.subject.bodyOf lowering.function)
    (found : lowering.subject.instruction? id = some held) (kind : held.opcode = .condbr)
    (filled : lowering.subject.operand? id 0 = some condition)
    (computed : lowering.subject.valueIn env condition = some number)
    (selected : lowering.subject.operand? id (if number = 0 then 2 else 1) = some target)
    (entered : lowering.subject.enter env block target = some outcome)
    (code : lowering.branchIf next block id = .ok (lines, last))
    (place : program = before ++ (lines ++ rest)) :
    lowering.Reaches program base (lines ++ rest, machine) outcome := by
  have typed : lowering.subject.typeOf condition = .int 1 := by
    obtain ⟨_, _, accepts⟩ := setting.accepted.accepts member found
    obtain ⟨condition', filled', typed⟩ := accepts.condbr kind
    rw [Module.operand?_of_instruction? found, filled'] at filled
    rw [← Option.some.inj filled]
    exact typed
  obtain ⟨ifTrue, ifFalse, load, falseEdge, more, label, parts, rfl⟩ :=
    branchCode_of_branchIf filled code
  obtain ⟨tested, flags, tests, known, zero, same⟩ :=
    executeAll_test represents parts.loads computed typed
  have represents' := represents.sameExcept same (by decide)
  have foot' := (same.registers .rsp (by decide)).trans foot
  have taken : Condition.notEqual.holds flags = !decide (number = 0) := by
    rw [Condition.holds, zero]
  rw [List.append_assoc (_ ++ _)] at place ⊢
  refine .after (Steps.of_executeAll tests) ?_
  rw [List.cons_append, List.append_assoc] at place ⊢
  by_cases equal : number = 0
  · rw [if_pos equal, (of_target parts.codeFalse).1] at selected
    obtain rfl := Option.some.inj selected
    rw [decide_eq_true equal] at taken
    refine .after (.head (step_jumpIf_of_not_holds known taken) (.refl _)) ?_
    exact reaches_of_edge setting hosts represents' foot'
      (setting.mem_blocksOf_of_target member parts.codeFalse) entered parts.edgeFalse _
  · rw [if_neg equal, (of_target parts.codeTrue).1] at selected
    obtain rfl := Option.some.inj selected
    rw [decide_eq_false equal] at taken
    have inside := setting.mem_blocksOf_of_target member parts.codeTrue
    rcases parts.edgeTrue with ⟨none, rfl⟩ | ⟨trueEdge, edge, rfl⟩
    · obtain ⟨code, jump, reaches⟩ :=
        reaches_of_jump setting hosts represents' foot' inside none entered
      exact .after (.head (step_jumpIf_of_holds known taken jump) (.refl _)) reaches
    · have edgeAt : program = (before ++ (load ++
          [.arithmetic .test .quad (.full .rax) (.full .rax)]) ++
            .jumpIf .notEqual label :: falseEdge) ++ .label label :: (trueEdge ++ rest) := by
        rw [place]
        simp only [List.append_assoc, List.cons_append]
      have jump := goto_of_nodup hosts.distinct edgeAt
      refine .after (.head (step_jumpIf_of_holds known taken jump) (.refl _)) ?_
      exact reaches_of_edge setting hosts represents' foot' inside entered edge _

end Lowering

end SsaAmd64
