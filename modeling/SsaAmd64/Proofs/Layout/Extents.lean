/-
**Extents of types.**

An alignment is one of five powers of two, and an object ends at a multiple of its own. The fields of
a struct lie one behind the other, each at the first place that its alignment allows.

* `IsRounded`: rounding up;
* `alignments`: the alignments that there are;
* `Arranged`: fields that lie one behind the other;
* `Ty.sizeByParts`, `Ty.alignByParts`: size and alignment, each found by a traversal of its own;
* `Ty.extent_lawful`: what the extent of a type says.
-/

import Mathlib.Data.Set.Insert
import Mathlib.Order.Bounds.Defs
import SsaAmd64.Layout.Basic
import SsaAmd64.Proofs.Outcomes

namespace SsaAmd64

/-! ### Rounding and ranges -/

theorem roundUp_eq {align : Nat} (proper : 1 < align) (value : Nat) :
    ∃ rest < align, roundUp value align + rest = value + align - 1 := by
  refine ⟨(value + align - 1) % align, Nat.mod_lt _ (by omega), ?_⟩
  rw [roundUp, if_neg (by omega), Nat.mul_comm]
  exact Nat.div_add_mod _ _

theorem roundUp_of_le_one {align : Nat} (trivial : align ≤ 1) (value : Nat) :
    roundUp value align = value :=
  if_pos trivial

theorem le_roundUp (value align : Nat) : value ≤ roundUp value align := by
  by_cases proper : 1 < align
  · obtain ⟨rest, less, equal⟩ := roundUp_eq proper value
    omega
  · exact Nat.le_of_eq (roundUp_of_le_one (Nat.le_of_not_lt proper) value).symm

theorem roundUp_le (value align : Nat) : roundUp value align ≤ value + align := by
  by_cases proper : 1 < align
  · obtain ⟨rest, less, equal⟩ := roundUp_eq proper value
    omega
  · rw [roundUp_of_le_one (Nat.le_of_not_lt proper)]
    exact Nat.le_add_right _ _

theorem dvd_roundUp (value : Nat) {align : Nat} (positive : 0 < align) :
    align ∣ roundUp value align := by
  by_cases proper : 1 < align
  · rw [roundUp, if_neg (by omega)]
    exact Nat.dvd_mul_left align _
  · obtain rfl : align = 1 := by omega
    exact Nat.one_dvd _

theorem roundUp_le_of_dvd {value align multiple : Nat} (divides : align ∣ multiple)
    (above : value ≤ multiple) : roundUp value align ≤ multiple := by
  by_cases proper : 1 < align
  · obtain ⟨rest, less, equal⟩ := roundUp_eq proper value
    have near : roundUp value align < multiple + align := by omega
    exact Nat.le_of_lt_add_of_dvd near (dvd_roundUp value (by omega)) divides
  · rw [roundUp_of_le_one (Nat.le_of_not_lt proper)]
    exact above

/-- **The least multiple of an alignment that is not below a value.** -/
def IsRounded (value align result : Nat) : Prop :=
  IsLeast {multiple | align ∣ multiple ∧ value ≤ multiple} result

theorem isRounded_roundUp (value : Nat) {align : Nat} (positive : 0 < align) :
    IsRounded value align (roundUp value align) :=
  ⟨⟨dvd_roundUp value positive, le_roundUp value align⟩,
    fun _ ⟨divides, above⟩ => roundUp_le_of_dvd divides above⟩

/-- Ranges of which one ends before the other begins. -/
def Separate (first second : Nat × Nat) : Prop :=
  first.1 + first.2 ≤ second.1 ∨ second.1 + second.2 ≤ first.1

/-! ### Alignments -/

/-- The alignments that there are. -/
def alignments : List Nat := [1, 2, 4, 8, 16]

theorem pos_of_mem_alignments : ∀ align ∈ alignments, 0 < align := by
  decide

theorem dvd_of_mem_alignments :
    ∀ first ∈ alignments, ∀ second ∈ alignments, first ≤ second → first ∣ second := by
  decide

theorem max_mem_alignments {first second : Nat} (one : first ∈ alignments)
    (other : second ∈ alignments) : max first second ∈ alignments := by
  rcases Nat.le_total first second with below | above
  · rwa [Nat.max_eq_right below]
  · rwa [Nat.max_eq_left above]

theorem scalarAlign_mem_alignments (size : Nat) : scalarAlign size ∈ alignments := by
  unfold scalarAlign
  repeat' split
  all_goals decide

mutual

theorem ensures_align_mem (type : Ty) :
    Ensures (fun extent => extent.align ∈ alignments) type.extent := by
  cases type with
  | int width => exact (Ensures.trivial _).bind fun _ _ _ => .of_ok (scalarAlign_mem_alignments _)
  | float format => exact .of_ok (scalarAlign_mem_alignments (format.width / 8))
  | pointer => exact .of_ok (scalarAlign_mem_alignments 8)
  | array length element => exact (ensures_align_mem element).bind fun _ _ known => .of_ok known
  | struct packed fields =>
    rw [Ty.extent]
    split
    · exact .of_error
    · exact (ensures_align_mem_place fields 0 (by decide)).bind fun _ _ known => .of_ok known
  | function | label | void => exact .of_error

theorem ensures_align_mem_place (fields : List Ty) (offset : Nat) {align : Nat}
    (known : align ∈ alignments) :
    Ensures (fun layout => layout.align ∈ alignments) (placeFields fields offset align) := by
  cases fields with
  | nil => exact .of_ok known
  | cons field fields =>
    refine (ensures_align_mem field).bind fun extent _ here => ?_
    exact (ensures_align_mem_place fields _ (max_mem_alignments known here)).bind
      fun _ _ later => .of_ok later

end

variable {type field : Ty} {extent : Extent} {fields : List Ty} {layout : StructLayout}
variable {offset align last finish : Nat} {offsets : List Nat}

theorem align_mem_alignments (laid : type.extent = .ok extent) : extent.align ∈ alignments :=
  ensures_align_mem type extent laid

theorem align_pos (laid : type.extent = .ok extent) : 0 < extent.align :=
  pos_of_mem_alignments _ (align_mem_alignments laid)

theorem size_of_extent (laid : type.extent = .ok extent) : type.size = .ok extent.size := by
  rw [Ty.size, laid]
  rfl

theorem align_of_extent (laid : type.extent = .ok extent) : type.align = .ok extent.align := by
  rw [Ty.align, laid]
  rfl

theorem stride_of_extent (laid : type.extent = .ok extent) : type.stride = .ok extent.stride := by
  rw [Ty.stride, laid]
  rfl

/-! ### Fields -/

/-- **Fields that lie one behind the other**, from the end of what comes before them to an end of
their own: each starts at the least multiple of its alignment that is not below the end of the one
before. -/
inductive Arranged : (last : Nat) → List Ty → (offsets : List Nat) → (finish : Nat) → Prop
  | nil (last : Nat) : Arranged last [] [] last
  | cons {last start finish : Nat} {field : Ty} {fields : List Ty} {offsets : List Nat}
      {extent : Extent} :
    field.extent = .ok extent → IsRounded last extent.align start →
    Arranged (start + extent.size) fields offsets finish →
    Arranged last (field :: fields) (start :: offsets) finish

theorem exists_arranged (placed : placeFields fields offset align = .ok layout) :
    ∃ finish, Arranged offset fields layout.offsets finish ∧
      layout.size = roundUp finish layout.align := by
  induction fields generalizing offset align layout with
  | nil =>
    cases placed
    exact ⟨offset, .nil offset, rfl⟩
  | cons field fields ih =>
    obtain ⟨extent, laid, placed⟩ := ok_of_bind placed
    obtain ⟨rest, later, done⟩ := ok_of_bind placed
    cases done
    obtain ⟨finish, arranged, size⟩ := ih later
    exact ⟨finish, .cons laid (isRounded_roundUp offset (align_pos laid)) arranged, size⟩

/-- A struct is aligned like its most aligned field. -/
theorem isGreatest_align (placed : placeFields fields offset align = .ok layout) :
    IsGreatest (insert align {other | ∃ field ∈ fields, field.align = .ok other}) layout.align := by
  induction fields generalizing offset align layout with
  | nil =>
    cases placed
    refine ⟨Set.mem_insert _ _, ?_⟩
    rintro other (rfl | ⟨field, member, _⟩)
    · exact Nat.le_refl _
    · cases member
  | cons field fields ih =>
    obtain ⟨extent, laid, placed⟩ := ok_of_bind placed
    obtain ⟨rest, later, done⟩ := ok_of_bind placed
    cases done
    obtain ⟨member, upper⟩ := ih later
    have bound : max align extent.align ≤ rest.align := upper (Set.mem_insert _ _)
    constructor
    · rcases member with here | ⟨field', inside, aligned⟩
      · rcases Nat.le_total extent.align align with below | above
        · exact .inl (here.trans (Nat.max_eq_left below))
        · refine .inr ⟨field, List.mem_cons_self, ?_⟩
          rw [align_of_extent laid, ← Nat.max_eq_right above, ← here]
      · exact .inr ⟨field', List.mem_cons_of_mem _ inside, aligned⟩
    · rintro other (rfl | ⟨field', inside, aligned⟩)
      · exact Nat.le_trans (Nat.le_max_left _ _) bound
      · rcases List.mem_cons.mp inside with rfl | inside
        · obtain rfl := Except.ok.inj ((align_of_extent laid).symm.trans aligned)
          exact Nat.le_trans (Nat.le_max_right _ _) bound
        · exact upper (.inr ⟨field', inside, aligned⟩)

theorem structLayout_of_extent {packed : Bool}
    (laid : (Ty.struct packed fields).extent = .ok extent) :
    ∃ layout, structLayout packed fields = .ok layout ∧ placeFields fields 0 1 = .ok layout ∧
      layout.extent = extent := by
  rw [Ty.extent] at laid
  split at laid
  case isTrue => cases laid
  case isFalse whole =>
    obtain ⟨layout, placed, done⟩ := ok_of_bind laid
    refine ⟨layout, ?_, placed, Except.ok.inj done⟩
    rw [structLayout, if_neg whole]
    exact placed

/-! ### Size and alignment by themselves -/

/-- Storage size of a scalar. Nothing else has one without parts. -/
def Ty.scalarSize : Ty → Except LayoutError Nat
  | .int width => intSize width
  | .float format => .ok (format.width / 8)
  | .pointer _ => .ok 8
  | type => .error (.unsized type)

mutual

/-- Storage size in bytes: an array asks for the size and then for the alignment of its element, a
struct places its fields. -/
def Ty.sizeByParts : Ty → Except LayoutError Nat
  | .array length element => do
    let size ← element.sizeByParts
    let align ← element.alignByParts
    return roundUp size align * length
  | .struct packed fields =>
    if packed then .error (.packedStruct (.struct packed fields))
    else do
      let layout ← placeByParts fields 0 1
      return layout.size
  | type => type.scalarSize

/-- Alignment: that of the element, that of the fields in their places, or the least power of two
that is not below the size of a scalar. -/
def Ty.alignByParts : Ty → Except LayoutError Nat
  | .int width =>
    if width = 128 then .ok 16 else do return max (← intSize width).nextPowerOfTwo 1
  | .array _ element => element.alignByParts
  | .struct packed fields =>
    if packed then .error (.packedStruct (.struct packed fields))
    else do
      let layout ← placeByParts fields 0 1
      return layout.align
  | type => do return max (← type.scalarSize).nextPowerOfTwo 1

/-- Places the fields that remain: each is asked for its alignment and then for its size. -/
def placeByParts : List Ty → (offset align : Nat) → Except LayoutError StructLayout
  | [], offset, align => .ok ⟨roundUp offset align, align, []⟩
  | field :: fields, offset, align => do
    let fieldAlign ← field.alignByParts
    let start := roundUp offset fieldAlign
    let size ← field.sizeByParts
    let rest ← placeByParts fields (start + size) (max align fieldAlign)
    return { rest with offsets := start :: rest.offsets }

end

theorem max_nextPowerOfTwo : ∀ size ≤ 16, max size.nextPowerOfTwo 1 = scalarAlign size := by
  decide +kernel

theorem intSize_le (width : Nat) : Ensures (· ≤ 16) (intSize width) := by
  unfold intSize
  split
  · exact .of_ok (by decide)
  · split
    · exact .of_ok (by omega)
    · exact .of_error

/-- A bit takes up a byte, and other integers what they are wide. -/
theorem width_of_size {bits size : Nat} (known : (Ty.int bits).size = .ok size) :
    bits = 1 ∧ size = 1 ∨ bits = 8 * size := by
  obtain ⟨extent, laidOut, same⟩ := ok_of_map known
  rw [Ty.extent] at laidOut
  obtain ⟨count, counted, rest⟩ := ok_of_bind laidOut
  obtain rfl := Except.ok.inj rest
  obtain rfl : count = size := same
  rw [intSize] at counted
  split at counted
  case isTrue bit => exact .inl ⟨bit, (Except.ok.inj counted).symm⟩
  case isFalse =>
    split at counted
    case isTrue whole =>
      obtain rfl := Except.ok.inj counted
      exact .inr (by omega)
    case isFalse => cases counted

mutual

/-- **One traversal finds the size and the alignment that each would find by itself**, and the same
error. -/
theorem Ty.byParts_eq (type : Ty) :
    type.sizeByParts = type.size ∧ type.alignByParts = type.align := by
  cases type with
  | int width =>
    show intSize width = _ ∧ (if width = 128 then _ else (intSize width >>= _)) = _
    rw [Ty.size, Ty.align, Ty.extent]
    cases known : intSize width with
    | error fault =>
      refine ⟨rfl, if_neg ?_⟩
      rintro rfl
      cases known
    | ok size =>
      refine ⟨rfl, ?_⟩
      split
      case isTrue wide =>
        subst wide
        cases known
        rfl
      case isFalse =>
        exact congrArg Except.ok (max_nextPowerOfTwo size (intSize_le width size known))
  | float format =>
    cases format <;> exact ⟨rfl, congrArg Except.ok (max_nextPowerOfTwo _ (by decide))⟩
  | pointer element => exact ⟨rfl, congrArg Except.ok (max_nextPowerOfTwo 8 (by decide))⟩
  | array length element =>
    obtain ⟨size, align⟩ := Ty.byParts_eq element
    rw [Ty.sizeByParts, Ty.alignByParts, size, align, Ty.size, Ty.align, Ty.size, Ty.align,
      Ty.extent]
    cases element.extent <;> exact ⟨rfl, rfl⟩
  | struct packed fields =>
    rw [Ty.sizeByParts, Ty.alignByParts, placeByParts_eq fields 0 1, Ty.size, Ty.align, Ty.extent]
    cases packed with
    | true => exact ⟨rfl, rfl⟩
    | false => cases placeFields fields 0 1 <;> exact ⟨rfl, rfl⟩
  | function | label | void => exact ⟨rfl, rfl⟩

theorem placeByParts_eq (fields : List Ty) (offset align : Nat) :
    placeByParts fields offset align = placeFields fields offset align := by
  cases fields with
  | nil => rfl
  | cons field fields =>
    obtain ⟨size, align'⟩ := Ty.byParts_eq field
    rw [placeByParts, placeFields, size, align', Ty.size, Ty.align]
    cases field.extent with
    | error fault => rfl
    | ok extent =>
      show (placeByParts fields _ _ >>= _) = (placeFields fields _ _ >>= _)
      rw [placeByParts_eq fields]

end

/-! ### The extent of a type -/

/-- **What the extent of a type says**: its alignment is one of five, a stride is the size rounded up
to it, an array is as long as its elements, and a struct as its fields. -/
structure Extent.Lawful (type : Ty) (extent : Extent) : Prop where
  align : extent.align ∈ alignments
  stride : ∃ stride, type.stride = .ok stride ∧ IsRounded extent.size extent.align stride
  array : ∀ length element, type = .array length element → ∃ stride,
    element.stride = .ok stride ∧ extent.size = length * stride ∧
    element.align = .ok extent.align
  struct : ∀ packed fields, type = .struct packed fields → ∃ layout finish,
    structLayout packed fields = .ok layout ∧ layout.extent = extent ∧
    Arranged 0 fields layout.offsets finish ∧
    IsGreatest (insert 1 {other | ∃ field ∈ fields, field.align = .ok other}) layout.align ∧
    IsRounded finish layout.align layout.size

theorem Extent.Lawful.of_extent (laid : type.extent = .ok extent) : extent.Lawful type where
  align := align_mem_alignments laid
  stride := ⟨extent.stride, stride_of_extent laid, isRounded_roundUp extent.size (align_pos laid)⟩
  array length element same := by
    subst same
    obtain ⟨inner, known, done⟩ := ok_of_bind laid
    cases done
    have aligned := align_of_extent known
    exact ⟨inner.stride, stride_of_extent known, Nat.mul_comm _ _, aligned⟩
  struct packed fields same := by
    subst same
    obtain ⟨layout, known, placed, rfl⟩ := structLayout_of_extent laid
    obtain ⟨finish, arranged, size⟩ := exists_arranged placed
    refine ⟨layout, finish, known, rfl, arranged, isGreatest_align placed, ?_⟩
    rw [size]
    exact isRounded_roundUp finish (align_pos laid)

/-- **Size and alignment of a type stand or fall together**, with the same error, and follow from
those of its parts. One traversal finds both, as two would that each ask for what they need. -/
theorem Ty.extent_lawful (type : Ty) :
    type.sizeByParts = type.size ∧ type.alignByParts = type.align ∧
      ((∃ error, type.size = .error error ∧ type.align = .error error) ∨
        ∃ extent : Extent, type.size = .ok extent.size ∧ type.align = .ok extent.align ∧
          extent.Lawful type) := by
  obtain ⟨size, align⟩ := Ty.byParts_eq type
  refine ⟨size, align, ?_⟩
  cases laid : type.extent with
  | error fault =>
    refine .inl ⟨fault, ?_, ?_⟩
    · rw [Ty.size, laid]
      rfl
    · rw [Ty.align, laid]
      rfl
  | ok extent => exact .inr ⟨extent, size_of_extent laid, align_of_extent laid, .of_extent laid⟩

/-- Three bytes that are aligned to four, and a struct that is aligned to sixteen. -/
example : (Ty.struct false [.int 8, .array 2 (.int 24), .struct false [], .int 72]).extent =
    .ok ⟨32, 16⟩ := by
  decide

end SsaAmd64
