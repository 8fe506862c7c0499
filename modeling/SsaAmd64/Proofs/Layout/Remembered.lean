/-
**Remembered layouts.**

A memory of struct layouts changes no answer. Each of its entries is the layout of its struct, since
an entry is made only of a placement that has succeeded; so it does not matter whether a layout is
looked up or computed, nor what earlier queries, successful or failing, have left behind.

* `LayoutCache.Sound`: a memory whose entries are right;
* `Recalls`: a computation that gives its result out of every sound memory, and leaves one;
* `recalls_extent`, `recalls_byParts`: size and alignment out of the memory, together or each by
  itself;
* `LayoutCache.answers_transparent`: a session answers every query as if it were the only one.
-/

import SsaAmd64.Layout.Cache
import SsaAmd64.Proofs.Layout.Extents

namespace SsaAmd64

variable {α β : Type} {cache : LayoutCache} {packed : Bool} {fields : List Ty}
variable {layout : StructLayout}

/-! ### Sound memories -/

/-- **A memory that holds for each struct the layout of this struct.** -/
def LayoutCache.Sound (cache : LayoutCache) : Prop :=
  ∀ packed fields layout, cache.find? packed fields = some layout →
    structLayout packed fields = .ok layout

theorem LayoutCache.sound_empty : LayoutCache.empty.Sound :=
  nofun

theorem LayoutCache.Sound.insert (sound : cache.Sound)
    (placed : structLayout packed fields = .ok layout) :
    (cache.insert packed fields layout).Sound := by
  intro packed' fields' layout' found
  rw [LayoutCache.find?, LayoutCache.insert, List.find?_cons] at found
  split at found
  case h_1 same =>
    cases of_decide_eq_true same
    cases found
    exact placed
  case h_2 => exact sound packed' fields' layout' found

/-! ### Computations with a memory -/

/-- **A computation that gives a result out of every sound memory**, and leaves a sound one, also
where it fails. -/
def Recalls (computation : Remembering α) (result : Except LayoutError α) : Prop :=
  ∀ cache : LayoutCache, cache.Sound →
    (computation.run cache).1 = result ∧ (computation.run cache).2.Sound

namespace Recalls

variable {computation : Remembering α} {result : Except LayoutError α}

theorem pure (value : α) : Recalls (pure value) (.ok value) :=
  fun _ sound => ⟨rfl, sound⟩

theorem throw (error : LayoutError) : Recalls (throw error : Remembering α) (.error error) :=
  fun _ sound => ⟨rfl, sound⟩

theorem lift (result : Except LayoutError α) :
    Recalls (extentRemembered.liftExcept result) result :=
  fun _ sound => ⟨rfl, sound⟩

theorem bind {next : α → Remembering β} {rest : α → Except LayoutError β}
    (first : Recalls computation result)
    (later : ∀ value, result = .ok value → Recalls (next value) (rest value)) :
    Recalls (computation >>= next) (result >>= rest) := by
  intro cache sound
  obtain ⟨answer, sound'⟩ := first cache sound
  have run : (computation >>= next).run cache =
      ExceptT.bindCont next (computation.run cache).1 (computation.run cache).2 := rfl
  rw [run, answer]
  cases result with
  | error error => exact ⟨rfl, sound'⟩
  | ok value => exact later value rfl _ sound'

/-- What is read off the memory may rely on its entries. -/
theorem get {next : LayoutCache → Remembering α}
    (later : ∀ cache : LayoutCache, cache.Sound → Recalls (next cache) result) :
    Recalls (do next (← get)) result :=
  fun cache sound => later cache sound cache sound

/-- A layout is kept once it has been found. -/
theorem keep (placed : structLayout packed fields = .ok layout) (recalls : Recalls computation result) :
    Recalls (do modify fun cache => cache.insert packed fields layout; computation) result :=
  fun _ sound => recalls _ (sound.insert placed)

theorem map {change : α → β} (recalls : Recalls computation result) :
    Recalls (do return change (← computation)) (result.map change) := by
  have both := recalls.bind fun value _ => pure (change value)
  cases result <;> exact both

end Recalls

/-! ### Structs -/

/-- The placement of a struct out of the memory, or else by a computation whose result is kept. -/
def remembering (packed : Bool) (fields : List Ty) (place : Remembering StructLayout) :
    Remembering StructLayout := do
  let cache ← get
  match cache.find? packed fields with
  | some layout => return layout
  | none =>
    if packed then throw (.packedStruct (.struct packed fields))
    let layout ← place
    modify fun cache => cache.insert packed fields layout
    return layout

theorem structRemembered_eq (packed : Bool) (fields : List Ty) :
    structRemembered packed fields = remembering packed fields (placeRemembered fields 0 1) :=
  rfl

theorem extentRemembered_struct (packed : Bool) (fields : List Ty) :
    extentRemembered (.struct packed fields) =
      (do return (← structRemembered packed fields).extent) := by
  rw [extentRemembered, structRemembered, bind_assoc]
  refine congrArg _ (funext fun cache => ?_)
  cases cache.find? packed fields with
  | some layout => rfl
  | none =>
    cases packed with
    | true => rfl
    | false => simp only [Bool.false_eq_true, if_false, bind_assoc, pure_bind]

/-- The memory is asked before the struct is looked at. A packed struct is refused all the same,
since no sound memory has an entry for it. -/
theorem Recalls.remembering {place : Remembering StructLayout}
    (placed : Recalls place (placeFields fields 0 1)) (packed : Bool) :
    Recalls (remembering packed fields place) (structLayout packed fields) := by
  refine .get fun cache sound => ?_
  cases found : cache.find? packed fields with
  | some layout =>
    rw [sound packed fields layout found]
    exact .pure layout
  | none =>
    cases packed with
    | true => exact .throw _
    | false =>
      rw [structLayout, if_neg Bool.false_ne_true, ← bind_pure (placeFields fields 0 1)]
      exact placed.bind fun layout known => .keep known (.pure layout)

theorem structLayout_map {α : Type} (packed : Bool) (fields : List Ty) (part : StructLayout → α) :
    (structLayout packed fields).map part =
      if packed then .error (.packedStruct (.struct packed fields))
      else (do return part (← placeFields fields 0 1)) := by
  cases packed with
  | true => rfl
  | false =>
    rw [structLayout]
    cases placeFields fields 0 1 <;> rfl

/-! ### Size and alignment in one traversal -/

mutual

/-- **Size and alignment of a type out of a memory** are those without one. -/
theorem recalls_extent (type : Ty) : Recalls (extentRemembered type) type.extent := by
  cases type with
  | array length element =>
    rw [extentRemembered, Ty.extent]
    exact (recalls_extent element).bind fun inner _ => .pure _
  | struct packed fields =>
    rw [extentRemembered_struct, structRemembered_eq, Ty.extent, ← structLayout_map]
    exact ((recalls_place fields 0 1).remembering packed).map
  | int width => exact .lift (Ty.int width).extent
  | float format => exact .lift (Ty.float format).extent
  | pointer element => exact .lift (Ty.pointer element).extent
  | function result parameters variadic => exact .lift (Ty.function result parameters variadic).extent
  | label => exact .lift Ty.label.extent
  | void => exact .lift Ty.void.extent

theorem recalls_place (fields : List Ty) (offset align : Nat) :
    Recalls (placeRemembered fields offset align) (placeFields fields offset align) := by
  cases fields with
  | nil => exact .pure _
  | cons field fields =>
    rw [placeRemembered, placeFields]
    refine (recalls_extent field).bind fun extent _ => ?_
    exact (recalls_place fields _ _).bind fun rest _ => .pure _

end

/-! ### Size and alignment by themselves -/

mutual

/-- Storage size in bytes, where an array asks for the size and then for the alignment of its
element. -/
def Ty.sizeInTurn : Ty → Remembering Nat
  | .array length element => do
    let size ← element.sizeInTurn
    let align ← element.alignInTurn
    return roundUp size align * length
  | .struct packed fields => do
    return (← remembering packed fields (placeInTurn fields 0 1)).size
  | type => extentRemembered.liftExcept type.scalarSize

/-- Alignment, where only structs are looked up. -/
def Ty.alignInTurn : Ty → Remembering Nat
  | .array _ element => element.alignInTurn
  | .struct packed fields => do
    return (← remembering packed fields (placeInTurn fields 0 1)).align
  | type => extentRemembered.liftExcept type.alignByParts

/-- Places the fields that remain. Each is asked for its alignment and then for its size, so that
a struct among them is found in the memory the second time. -/
def placeInTurn : List Ty → (offset align : Nat) → Remembering StructLayout
  | [], offset, align => return ⟨roundUp offset align, align, []⟩
  | field :: fields, offset, align => do
    let fieldAlign ← field.alignInTurn
    let start := roundUp offset fieldAlign
    let size ← field.sizeInTurn
    let rest ← placeInTurn fields (start + size) (max align fieldAlign)
    return { rest with offsets := start :: rest.offsets }

end

mutual

theorem recalls_byParts (type : Ty) :
    Recalls type.sizeInTurn type.sizeByParts ∧ Recalls type.alignInTurn type.alignByParts := by
  cases type with
  | array length element =>
    obtain ⟨size, align⟩ := recalls_byParts element
    rw [Ty.sizeInTurn, Ty.sizeByParts, Ty.alignInTurn, Ty.alignByParts]
    exact ⟨size.bind fun _ _ => align.bind fun _ _ => .pure _, align⟩
  | struct packed fields =>
    have placed := recalls_placeInTurn fields 0 1
    rw [placeByParts_eq] at placed
    have found := placed.remembering packed
    rw [Ty.sizeInTurn, Ty.sizeByParts, Ty.alignInTurn, Ty.alignByParts, placeByParts_eq,
      ← structLayout_map, ← structLayout_map]
    exact ⟨found.map, found.map⟩
  | int width => exact ⟨.lift (Ty.int width).scalarSize, .lift (Ty.int width).alignByParts⟩
  | float format => exact ⟨.lift (Ty.float format).scalarSize, .lift (Ty.float format).alignByParts⟩
  | pointer element =>
    exact ⟨.lift (Ty.pointer element).scalarSize, .lift (Ty.pointer element).alignByParts⟩
  | function result parameters variadic =>
    exact ⟨.lift (Ty.function result parameters variadic).scalarSize,
      .lift (Ty.function result parameters variadic).alignByParts⟩
  | label => exact ⟨.lift Ty.label.scalarSize, .lift Ty.label.alignByParts⟩
  | void => exact ⟨.lift Ty.void.scalarSize, .lift Ty.void.alignByParts⟩

theorem recalls_placeInTurn (fields : List Ty) (offset align : Nat) :
    Recalls (placeInTurn fields offset align) (placeByParts fields offset align) := by
  cases fields with
  | nil => exact .pure _
  | cons field fields =>
    obtain ⟨size, align'⟩ := recalls_byParts field
    rw [placeInTurn, placeByParts]
    refine align'.bind fun fieldAlign _ => size.bind fun fieldSize _ => ?_
    exact (recalls_placeInTurn fields _ _).bind fun _ _ => .pure _

end

/-! ### Sessions -/

/-- The offset of a field, once its struct has been placed. -/
def offsetIn (packed : Bool) (fields : List Ty) (field : Nat) (layout : StructLayout) :
    Except LayoutError LayoutAnswer :=
  match layout.offsets[field]? with
  | some offset => .ok (.amount offset)
  | none => .error (.unsized (.struct packed fields))

theorem answer_fieldOffset (packed : Bool) (fields : List Ty) (field : Nat) :
    (LayoutQuery.fieldOffset packed fields field).answer =
      (structLayout packed fields >>= offsetIn packed fields field) := by
  rw [LayoutQuery.answer, fieldOffset]
  cases structLayout packed fields with
  | error error => rfl
  | ok layout =>
    show Except.map _ (match layout.offsets[field]? with | some offset => .ok offset | none => _) =
      offsetIn packed fields field layout
    rw [offsetIn]
    split <;> rfl

theorem Recalls.fieldOffset {computation : Remembering StructLayout}
    (placed : Recalls computation (structLayout packed fields)) (field : Nat) :
    Recalls (do
      let layout ← computation
      match layout.offsets[field]? with
      | some offset => return .amount offset
      | none => MonadExcept.throw (.unsized (.struct packed fields)))
      (LayoutQuery.fieldOffset packed fields field).answer := by
  rw [answer_fieldOffset]
  refine placed.bind fun layout _ => ?_
  rw [offsetIn]
  split
  case h_1 => exact .pure _
  case h_2 => exact .throw _

/-- A part of the extent of a type. -/
theorem recalls_part (type : Ty) (part : Extent → Nat) :
    Recalls (do return .amount (part (← extentRemembered type)))
      ((type.extent.map part).map LayoutAnswer.amount) := by
  have once : (type.extent.map part).map LayoutAnswer.amount =
      type.extent.map fun extent => .amount (part extent) := by
    cases type.extent <;> rfl
  rw [once]
  exact (recalls_extent type).map

namespace LayoutCache

/-- **A query is answered out of a sound memory as it is without one.** -/
theorem recalls_compute (query : LayoutQuery) : Recalls (compute query) query.answer := by
  cases query with
  | size type => exact recalls_part type Extent.size
  | align type => exact recalls_part type Extent.align
  | stride type => exact recalls_part type Extent.stride
  | struct packed fields => exact ((recalls_place fields 0 1).remembering packed).map
  | fieldOffset packed fields field =>
    exact ((recalls_place fields 0 1).remembering packed).fieldOffset field

/-- The computation that answers a query out of the memory, where sizes and alignments are asked for
one by one. -/
def computeInTurn : LayoutQuery → Remembering LayoutAnswer
  | .size type => return .amount (← type.sizeInTurn)
  | .align type => return .amount (← type.alignInTurn)
  | .stride type => do
    let size ← type.sizeInTurn
    let align ← type.alignInTurn
    return .amount (roundUp size align)
  | .struct packed fields => do
    return .placement (← remembering packed fields (placeInTurn fields 0 1))
  | .fieldOffset packed fields field => do
    let layout ← remembering packed fields (placeInTurn fields 0 1)
    match layout.offsets[field]? with
    | some offset => return .amount offset
    | none => throw (.unsized (.struct packed fields))

theorem recalls_computeInTurn (query : LayoutQuery) :
    Recalls (computeInTurn query) query.answer := by
  have placed (fields : List Ty) : Recalls (placeInTurn fields 0 1) (placeFields fields 0 1) :=
    placeByParts_eq fields 0 1 ▸ recalls_placeInTurn fields 0 1
  cases query with
  | size type =>
    rw [LayoutQuery.answer, ← (Ty.byParts_eq type).1]
    exact (recalls_byParts type).1.map
  | align type =>
    rw [LayoutQuery.answer, ← (Ty.byParts_eq type).2]
    exact (recalls_byParts type).2.map
  | stride type =>
    have answer : (LayoutQuery.stride type).answer = (do
        let size ← type.sizeByParts
        let align ← type.alignByParts
        return .amount (roundUp size align)) := by
      rw [(Ty.byParts_eq type).1, (Ty.byParts_eq type).2, LayoutQuery.answer, Ty.stride, Ty.size,
        Ty.align]
      cases type.extent <;> rfl
    obtain ⟨size, align⟩ := recalls_byParts type
    rw [answer]
    exact size.bind fun _ _ => align.bind fun _ _ => .pure _
  | struct packed fields => exact ((placed fields).remembering packed).map
  | fieldOffset packed fields field => exact ((placed fields).remembering packed).fieldOffset field

/-- The answers of a session, in order, where each query is answered by a computation of its own. -/
def session (compute : LayoutQuery → Remembering LayoutAnswer) (cache : LayoutCache) :
    List LayoutQuery → List (Except LayoutError LayoutAnswer)
  | [] => []
  | query :: queries =>
    ((compute query).run cache).1 :: session compute ((compute query).run cache).2 queries

theorem answers_eq_session (cache : LayoutCache) (queries : List LayoutQuery) :
    cache.answers queries = cache.session compute queries := by
  induction queries generalizing cache with
  | nil => rfl
  | cons query queries ih => exact congrArg (List.cons _) (ih _)

theorem session_eq {compute : LayoutQuery → Remembering LayoutAnswer}
    (recalls : ∀ query, Recalls (compute query) query.answer) (sound : cache.Sound)
    (queries : List LayoutQuery) :
    cache.session compute queries = queries.map LayoutQuery.answer := by
  induction queries generalizing cache with
  | nil => rfl
  | cons query queries ih =>
    obtain ⟨answer, sound'⟩ := recalls query cache sound
    rw [session, List.map_cons, answer, ih sound']

/-- **The memory changes no answer.** In every session of queries, successful or failing, each is
answered as by a memory that is still empty, and as without any. It is the same if every size and
every alignment is asked for by itself, each time with a look at the memory. -/
theorem answers_transparent (queries : List LayoutQuery) :
    empty.answers queries = queries.map (fun query => (empty.answer query).1) ∧
      empty.answers queries = queries.map LayoutQuery.answer ∧
      empty.session computeInTurn queries = queries.map LayoutQuery.answer := by
  have alone : (fun query => (empty.answer query).1) = LayoutQuery.answer :=
    funext fun query => (recalls_compute query empty sound_empty).1
  rw [alone, answers_eq_session]
  have shared := session_eq recalls_compute sound_empty queries
  exact ⟨shared, shared, session_eq recalls_computeInTurn sound_empty queries⟩

/-- A query that fails behind a struct that has been placed, and the same struct by itself. -/
example : empty.answers [.size (.struct false [.struct false [.int 8], .void]),
    .struct false [.int 8], .align (.struct true [.int 8])] =
      [.error (.unsized .void), .ok (.placement ⟨1, 1, [0]⟩),
        .error (.packedStruct (.struct true [.int 8]))] := by
  decide

end LayoutCache

end SsaAmd64
