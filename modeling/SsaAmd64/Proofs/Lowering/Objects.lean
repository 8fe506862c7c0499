/-
**Objects of the data section.**

An assembler reads the data section from top to bottom: a label opens an object, which goes on to the
next one and is filled by the directives in between. Every global is one object, at the alignment of
its storage and with as many bytes as its storage has. They spell its initial value: zeros, a number
with its lowest byte first, a byte string, or the address of another global.

* `Asm.objects`: the objects that lines define;
* `Asm.IsDataSection`: lines that are all part of objects;
* `Asm.Line.image`: the bytes of a directive, where symbols have addresses;
* `Module.Spells`: bytes that are an initial value;
* `Module.Lays`: directives that lay out an initial value;
* `Module.Stores`, `Module.IsStored`: an object that is the storage of a global;
* `Module.Built.objects_globals`: the objects of a data section are the globals of its module.
-/

import SsaAmd64.Lowering.Module
import SsaAmd64.Proofs.Ir.Types
import SsaAmd64.Proofs.Lowering.Labels

namespace SsaAmd64

namespace Asm

/-! ### What an assembler reads -/

/-- **The bytes of a directive**, where symbols have addresses. -/
def Line.image (address : String → BitVec 64) : Line → List UInt8
  | .zero count => List.replicate count 0
  | .ascii content | .bytes content => content
  | .data width value => Bytes.ofNat width.bytes value
  | .address symbol => Bytes.ofNat 8 (address symbol).toNat
  | _ => []

/-- What a label of a data section stands for. -/
structure Object where
  label : String
  /-- The boundary that it starts at, if an alignment directive stands before it. -/
  boundary : Option Nat
  /-- The directives that fill it. -/
  content : List Line

/-- The bytes of an object. -/
def Object.image (address : String → BitVec 64) (object : Object) : List UInt8 :=
  object.content.flatMap (Line.image address)

/-- The directives up to the next label or alignment. -/
def content : List Line → List Line
  | [] => []
  | .label _ :: _ | .align _ :: _ => []
  | line :: lines => if line.isData then line :: content lines else content lines

/-- **The objects that lines define**, behind an alignment directive or not. -/
def objects : (boundary : Option Nat) → List Line → List Object
  | _, [] => []
  | boundary, .label name :: lines => ⟨name, boundary, content lines⟩ :: objects boundary lines
  | _, .align boundary :: lines => objects (some boundary) lines
  | boundary, line :: lines => objects (if line.isData then none else boundary) lines

/-- A line that neither fills nor opens an object. -/
def Line.isNote : Line → Bool
  | .comment _ | .globl _ => true
  | _ => false

/-- A line that opens an object or closes the one before. -/
def Line.isBound : Line → Bool
  | .label _ | .align _ => true
  | _ => false

/-- **Lines that make up a data section**: behind the directive that opens it there are only lines
that fill or bound objects, and notes. Nothing that is read as objects is passed over. -/
def IsDataSection : List Line → Prop
  | [] => True
  | first :: lines => first = .directive ".data" ∧
    ∀ line ∈ lines, line.isData = true ∨ line.isBound = true ∨ line.isNote = true

variable {line : Line} {head filling rest : List Line} {boundary : Option Nat}

theorem content_cons_of_isData (data : line.isData = true) :
    content (line :: rest) = line :: content rest := by
  cases line <;> first | rfl | cases data

theorem objects_cons_of_isData (data : line.isData = true) :
    objects boundary (line :: rest) = objects none rest := by
  cases line <;> first | rfl | cases data

theorem content_cons_of_isNote (note : line.isNote = true) :
    content (line :: rest) = content rest := by
  cases line <;> first | rfl | cases note

theorem objects_cons_of_isNote (note : line.isNote = true) :
    objects boundary (line :: rest) = objects boundary rest := by
  cases line <;> first | rfl | cases note

theorem skip_notes (notes : ∀ line ∈ head, line.isNote = true) (rest : List Line) :
    content (head ++ rest) = content rest ∧
      ∀ boundary, objects boundary (head ++ rest) = objects boundary rest := by
  induction head with
  | nil => exact ⟨rfl, fun _ => rfl⟩
  | cons line head ih =>
    obtain ⟨here, others⟩ := List.forall_mem_cons.mp notes
    obtain ⟨filled, opened⟩ := ih others
    refine ⟨(content_cons_of_isNote here).trans filled, fun boundary => ?_⟩
    exact (objects_cons_of_isNote here).trans (opened boundary)

theorem skip_data (data : ∀ line ∈ filling, line.isData = true) (rest : List Line) :
    content (filling ++ rest) = filling ++ content rest ∧
      ∀ boundary, ∃ next, objects boundary (filling ++ rest) = objects next rest := by
  induction filling with
  | nil => exact ⟨rfl, fun boundary => ⟨boundary, rfl⟩⟩
  | cons line filling ih =>
    obtain ⟨here, others⟩ := List.forall_mem_cons.mp data
    obtain ⟨filled, opened⟩ := ih others
    refine ⟨(content_cons_of_isData here).trans (congrArg (List.cons line) filled), fun boundary => ?_⟩
    obtain ⟨next, same⟩ := opened none
    exact ⟨next, (objects_cons_of_isData here).trans same⟩

/-- **The lines of one object**, with what stands before its alignment. -/
inductive Defines : List Line → Object → Prop
  | intro {head content : List Line} {boundary : Nat} {label : String} :
      (∀ line ∈ head, line.isNote = true) → (∀ line ∈ content, line.isData = true) →
      Defines (head ++ .align boundary :: .label label :: content) ⟨label, some boundary, content⟩

/-- Nothing of an object stands before its alignment. -/
theorem Defines.content_append {object : Object} (defines : Defines head object)
    (rest : List Line) : content (head ++ rest) = [] := by
  cases defines with
  | intro notes data =>
    rw [List.append_assoc, (skip_notes notes _).1]
    rfl

/-- The lines of an object fill or bound it, or are notes. -/
theorem Defines.isData_or {lines : List Line} {object : Object} (defines : Defines lines object) :
    ∀ line ∈ lines, line.isData = true ∨ line.isBound = true ∨ line.isNote = true := by
  cases defines with
  | intro notes data =>
    refine List.forall_mem_append.mpr ⟨fun line member => .inr (.inr (notes line member)), ?_⟩
    refine List.forall_mem_cons.mpr ⟨.inr (.inl rfl), List.forall_mem_cons.mpr ⟨.inr (.inl rfl), ?_⟩⟩
    exact fun line member => .inl (data line member)

/-- Lines of objects behind the directive that opens the section make up one. -/
theorem isDataSection_flatten {parts : List (List Line)} {defined : List Object}
    (pairs : List.Forall₂ Defines parts defined) :
    IsDataSection (.directive ".data" :: parts.flatten) := by
  refine ⟨rfl, ?_⟩
  induction pairs with
  | nil => exact List.forall_mem_nil _
  | cons here _ ih => exact List.forall_mem_append.mpr ⟨here.isData_or, ih⟩

/-- **Lines of objects, one after the other, are read as these objects.** -/
theorem objects_flatten {parts : List (List Line)} {defined : List Object}
    (pairs : List.Forall₂ Defines parts defined) (boundary : Option Nat) :
    objects boundary parts.flatten = defined := by
  induction pairs generalizing boundary with
  | nil => rfl
  | @cons _ _ parts defined here later ih =>
    cases here with
    | @intro head filling start label notes data =>
    have ends : content parts.flatten = [] := by
      cases later with
      | nil => rfl
      | cons next _ => exact next.content_append _
    obtain ⟨filled, opened⟩ := skip_data data parts.flatten
    obtain ⟨next, same⟩ := opened (some start)
    rw [List.flatten_cons, List.append_assoc, (skip_notes notes _).2]
    show ⟨label, some start, content (filling ++ parts.flatten)⟩ ::
      objects (some start) (filling ++ parts.flatten) = _
    rw [filled, ends, List.append_nil, same, ih next]

end Asm

open Asm

/-! ### Initial values -/

/-- The number that a literal other than a byte string stands for. -/
def Literal.word? : Literal → Option Nat
  | int _ value _ => some value
  | float format bits => some (bits % patternCount format.width)
  | bytes _ => none

/-- **Bytes that are the value of a literal**: a number with its lowest byte first, or the byte string
itself. -/
def Literal.Spells (image : List UInt8) : Literal → Prop
  | int _ value _ => Bytes.toNat image = value
  | float format bits => Bytes.toNat image = bits % patternCount format.width
  | bytes content => image = content

namespace Literal

variable {literal : Literal} {word size : Nat} {image : List UInt8}

theorem spells_of_word? (known : literal.word? = some word) (read : Bytes.toNat image = word) :
    literal.Spells image := by
  cases literal with
  | int | float => exact read.trans (Option.some.inj known).symm
  | bytes => cases known

theorem image_of_word? (known : literal.word? = some word) (size : Nat) :
    literal.image size = Bytes.ofNat size word := by
  cases literal with
  | int | float => rw [← Option.some.inj known, Literal.image]
  | bytes => cases known

/-- The type of a literal has room for all of its number. -/
theorem word_lt (known : literal.word? = some word) (sized : literal.type.size = .ok size) :
    word < patternCount (8 * size) := by
  cases literal with
  | int width value inRange =>
    obtain rfl := Option.some.inj known
    refine Nat.lt_of_lt_of_le inRange (Nat.pow_le_pow_right Nat.two_pos ?_)
    rcases width_of_size sized with ⟨rfl, rfl⟩ | rfl
    · decide
    · exact Nat.min_le_left _ _
  | float format bits =>
    obtain rfl := Option.some.inj known
    obtain rfl := Except.ok.inj sized
    have whole : 8 * (format.width / 8) = format.width := by cases format <;> rfl
    rw [whole]
    exact Nat.mod_lt _ (patternCount_pos _)
  | bytes => cases known

end Literal

namespace Module

/-- **Bytes that are an initial value**, where symbols have addresses. -/
def Spells (m : Module) (symbols : Symbols) (address : String → BitVec 64) (image : List UInt8) :
    Initialiser → Prop
  | .zero => ∀ byte ∈ image, byte = 0
  | .literal value => ∃ literal, m.literal? value = some literal ∧ literal.Spells image
  | .global other =>
    other ∈ m.globals ∧ Bytes.toNat image = (address (symbols.symbol other)).toNat

/-- **Directives that lay out an initial value** in storage of a size: a number is one scalar where
there is one of this size, and a list of bytes otherwise. -/
inductive Lays (m : Module) (symbols : Symbols) (size : Nat) : Initialiser → List Line → Prop
  | empty : size = 0 → Lays m symbols size .zero []
  | zero : 0 < size → Lays m symbols size .zero [.zero size]
  | scalar {value : ValueId} {literal : Literal} {word : Nat} {width : Width} :
      m.literal? value = some literal → literal.word? = some word → width.bytes = size →
      word < patternCount (8 * size) → Lays m symbols size (.literal value) [.data width word]
  | list {value : ValueId} {literal : Literal} {word : Nat} :
      m.literal? value = some literal → literal.word? = some word →
      (∀ width : Width, width.bytes ≠ size) → word < patternCount (8 * size) →
      Lays m symbols size (.literal value) [.bytes (Bytes.ofNat size word)]
  | text {value : ValueId} {content : List UInt8} :
      m.literal? value = some (.bytes content) → content.length = size →
      Lays m symbols size (.literal value) [.ascii content]
  | address {other : ValueId} : other ∈ m.globals → size = 8 →
      Lays m symbols size (.global other) [.address (symbols.symbol other)]

variable {m : Module} {symbols : Symbols} {size : Nat} {initialiser : Initialiser}
variable {content : List Line}

/-- What lays out an initial value is data. -/
theorem Lays.isData (lays : m.Lays symbols size initialiser content) :
    ∀ line ∈ content, line.isData = true := by
  cases lays with
  | empty => exact List.forall_mem_nil _
  | zero | scalar | list | text | address => exact List.forall_mem_singleton.mpr rfl

/-- **Directives fill all of the storage.** -/
theorem Lays.length_image (lays : m.Lays symbols size initialiser content)
    (address : String → BitVec 64) : (content.flatMap (Line.image address)).length = size := by
  cases lays with
  | empty none => exact none.symm
  | zero | list =>
    rw [List.flatMap_singleton, Line.image]
    simp only [List.length_replicate, Bytes.length_ofNat]
  | scalar _ _ whole _ => rw [List.flatMap_singleton, Line.image, Bytes.length_ofNat, whole]
  | text _ whole => rw [List.flatMap_singleton, Line.image, whole]
  | address _ word => rw [List.flatMap_singleton, Line.image, Bytes.length_ofNat, word]

/-- **Directives give the initial value.** -/
theorem Lays.spells (lays : m.Lays symbols size initialiser content)
    (address : String → BitVec 64) :
    m.Spells symbols address (content.flatMap (Line.image address)) initialiser := by
  cases lays with
  | empty => exact List.forall_mem_nil _
  | zero =>
    rw [List.flatMap_singleton]
    exact fun byte member => List.eq_of_mem_replicate member
  | scalar found known whole fits =>
    rw [List.flatMap_singleton]
    refine ⟨_, found, Literal.spells_of_word? known ?_⟩
    rw [Line.image, whole, Bytes.toNat_ofNat, Nat.mod_eq_of_lt fits]
  | list found known _ fits =>
    rw [List.flatMap_singleton]
    refine ⟨_, found, Literal.spells_of_word? known ?_⟩
    rw [Line.image, Bytes.toNat_ofNat, Nat.mod_eq_of_lt fits]
  | text found => exact ⟨_, found, List.flatMap_singleton _ _⟩
  | address member word =>
    rw [List.flatMap_singleton]
    refine ⟨member, ?_⟩
    rw [Line.image, Bytes.toNat_ofNat]
    exact Nat.mod_eq_of_lt (address _).isLt

end Module

/-! ### The directives of a global -/

namespace Lowering

variable {m : Module} {symbols : Symbols} {size : Nat} {id value : ValueId} {literal : Literal}
variable {initialiser : Initialiser} {content part : List Line}

theorem literalData_of_ofBytes? {word : Nat} {width : Width} (known : literal.word? = some word)
    (fits : word < patternCount (8 * size)) (scalar : Width.ofBytes? size = some width) :
    literalData literal size = .data width word := by
  have read : Bytes.toNat (literal.image size) = word := by
    rw [Literal.image_of_word? known, Bytes.toNat_ofNat, Nat.mod_eq_of_lt fits]
  cases literal with
  | int | float => simp only [literalData, scalar, read]
  | bytes => cases known

theorem literalData_of_none {word : Nat} (known : literal.word? = some word)
    (none : Width.ofBytes? size = none) :
    literalData literal size = .bytes (Bytes.ofNat size word) := by
  have image := Literal.image_of_word? known size
  cases literal with
  | int | float => simp only [literalData, none, image]
  | bytes => cases known

theorem lays_literalData (found : m.literal? value = some literal)
    (sized : literal.type.size = .ok size) :
    m.Lays symbols size (.literal value) [literalData literal size] := by
  cases known : literal.word? with
  | some word =>
    have fits := Literal.word_lt known sized
    cases scalar : Width.ofBytes? size with
    | some width =>
      rw [literalData_of_ofBytes? known fits scalar]
      exact .scalar found known ((Width.ofBytes?_eq_some_iff size width).mp scalar) fits
    | none =>
      rw [literalData_of_none known scalar]
      refine .list found known (fun width same => ?_) fits
      rw [(Width.ofBytes?_eq_some_iff size width).mpr same] at scalar
      cases scalar
  | none =>
    cases literal with
    | int | float => cases known
    | bytes content =>
      obtain rfl := Except.ok.inj sized
      exact .text found (Nat.one_mul content.length).symm

/-- **What is written for an initial value lays it out.** -/
theorem lays_initialData (listed : ∀ other, initialiser = .global other → other ∈ m.globals)
    (made : initialData m symbols id size initialiser = .ok content) :
    m.Lays symbols size initialiser content := by
  cases initialiser with
  | zero =>
    obtain rfl := Except.ok.inj made
    split
    case isTrue some => exact .zero some
    case isFalse none => exact .empty (Nat.eq_zero_of_not_pos none)
  | global other =>
    rw [initialData] at made
    split at made
    case isTrue word =>
      obtain rfl := Except.ok.inj made
      exact .address (listed other rfl) word
    case isFalse => cases made
  | literal value =>
    obtain ⟨literalSize, sized, made⟩ := ok_of_bind made
    split at made
    case h_1 literal found =>
      split at made
      case isTrue same =>
        obtain rfl := Except.ok.inj made
        rw [Module.typeOf_literal found, same] at sized
        exact lays_literalData found (ok_of_mapError sized)
      case isFalse => cases made
    case h_2 => cases made

end Lowering

namespace Module

/-- **An object is the storage of a global**: it goes by its symbol, starts at the alignment of its
type, and is as long as its type and filled with its initial value wherever symbols have their
addresses. -/
structure Stores (m : Module) (symbols : Symbols) (held : Global) (extent : Extent) (id : ValueId)
    (object : Object) : Prop where
  found : m.global? id = some held
  laid : held.storage.extent = .ok extent
  named : object.label = symbols.symbol id
  aligned : object.boundary = some extent.align
  lays : m.Lays symbols extent.size held.initialiser object.content
  length : ∀ address, (object.image address).length = extent.size
  spells : ∀ address, m.Spells symbols address (object.image address) held.initialiser

/-- An object is a global. -/
def IsStored (m : Module) (symbols : Symbols) (id : ValueId) (object : Object) : Prop :=
  ∃ held extent, m.Stores symbols held extent id object

variable {m : Module} {symbols : Symbols} {id : ValueId} {part lines : List Line} {comments : Bool}
variable {options : Options}

theorem Listed.stored_globalData (listed : m.Listed) (known : (m.global? id).isSome)
    (made : Lowering.globalData (Printer.of m) symbols comments id = .ok part) :
    ∃ object, Defines part object ∧ m.IsStored symbols id object := by
  obtain ⟨held, found⟩ := Option.isSome_iff_exists.mp known
  have subject : (Printer.of m).subject = m := rfl
  rw [Lowering.globalData, subject, found] at made
  obtain ⟨extent, laid, made⟩ := ok_of_bind made
  obtain ⟨content, initial, made⟩ := ok_of_bind made
  obtain rfl := Except.ok.inj made
  have lays : m.Lays symbols extent.size held.initialiser content := by
    refine Lowering.lays_initialData (fun other same => ?_) initial
    obtain ⟨target, isGlobal⟩ :=
      Option.isSome_iff_exists.mp (listed.isSome_of_initialiser found same)
    exact listed.mem_globals isGlobal
  refine ⟨⟨symbols.symbol id, some extent.align, content⟩, ?_, held, extent, found,
    ok_of_mapError laid, rfl, rfl, lays, lays.length_image, lays.spells⟩
  rw [List.append_assoc]
  refine .intro (List.forall_mem_append.mpr ⟨?_, ?_⟩) lays.isData
  · rw [Lowering.comment]
    split
    · exact List.forall_mem_singleton.mpr rfl
    · exact List.forall_mem_nil _
  · split
    · exact List.forall_mem_nil _
    · exact List.forall_mem_singleton.mpr rfl

theorem Listed.stored_globals (listed : m.Listed) {ids : List ValueId}
    (known : ∀ id ∈ ids, (m.global? id).isSome) {parts : List (List Line)}
    (made : ids.mapM (Lowering.globalData (Printer.of m) symbols comments) = .ok parts) :
    ∃ defined, List.Forall₂ Defines parts defined ∧
      List.Forall₂ (m.IsStored symbols) ids defined := by
  have pairs := forall₂_of_mapM made
  clear made
  induction pairs with
  | nil => exact ⟨[], .nil, .nil⟩
  | cons here _ ih =>
    obtain ⟨first, others⟩ := List.forall_mem_cons.mp known
    obtain ⟨object, defines, stored⟩ := listed.stored_globalData first here
    obtain ⟨defined, later, all⟩ := ih others
    exact ⟨object :: defined, .cons defines later, .cons stored all⟩

/-- **The objects of a data section are the globals of its module**, one after the other, and all of
its lines are part of them. -/
theorem Built.objects_globals (built : Built m) (made : m.assembleData options = .ok lines) :
    IsDataSection lines ∧
    ∃ symbols, Symbols.of (Printer.of m) options.platform = .ok symbols ∧
      List.Forall₂ (m.IsStored symbols) m.globals (objects none lines) := by
  obtain ⟨symbols, named, made⟩ := ok_of_bind made
  suffices all : IsDataSection lines ∧
      List.Forall₂ (m.IsStored symbols) m.globals (objects none lines) from
    ⟨all.1, symbols, named, all.2⟩
  have subject : (Printer.of m).subject = m := rfl
  rw [Lowering.dataSection, subject] at made
  split at made
  case h_1 none =>
    obtain rfl := Except.ok.inj made
    rw [none]
    exact ⟨trivial, .nil⟩
  case h_2 =>
    obtain ⟨parts, each, made⟩ := ok_of_bind made
    obtain rfl := Except.ok.inj made
    have known : ∀ id ∈ m.globals, (m.global? id).isSome := fun id member =>
      isSome_global?_iff.mpr (built.enrolled.globals id member)
    obtain ⟨defined, defines, stored⟩ := built.listed.stored_globals known each
    refine ⟨isDataSection_flatten defines, ?_⟩
    show List.Forall₂ _ _ (objects none parts.flatten)
    rwa [objects_flatten defines]

/-- Globals of all sizes: numbers with and without a scalar, a float, an address, zeros, none at all,
and a byte string without a proper name. -/
def stockSteps : List Operation :=
  [.addLiteral (.ofNat 32 42), .addLiteral (.ofNat 24 0x10203),
    .addLiteral (.ofNat 128 0x100000000000000000000000000000ff),
    .addLiteral (.float .double 0x3fe0000000000000),
    .addGlobal (.int 32) (.literal ⟨0⟩) "answer", .addGlobal (.int 24) (.literal ⟨1⟩) "odd",
    .addGlobal (.int 128) (.literal ⟨2⟩) "wide", .addGlobal (.float .double) (.literal ⟨3⟩) "half",
    .addGlobal (.pointer (.int 32)) (.global ⟨4⟩) "pointer",
    .addGlobal (.array 4 (.int 64)) .zero "table", .addGlobal (.struct false []) .zero "nothing",
    .addText "hi" true "1"]

def stock : Module := builtBy "stock" stockSteps

def stockLines : List Line :=
  [.directive ".data",
    .globl "_answer", .align 4, .label "_answer", .data .long 42,
    .globl "_odd", .align 4, .label "_odd", .bytes [3, 2, 1],
    .globl "_wide", .align 16, .label "_wide",
    .bytes [0xff, 0, 0, 0, 0, 0, 0, 0, 0, 0, 0, 0, 0, 0, 0, 0x10],
    .globl "_half", .align 8, .label "_half", .data .quad 0x3fe0000000000000,
    .globl "_pointer", .align 8, .label "_pointer", .address "_answer",
    .globl "_table", .align 8, .label "_table", .zero 32,
    .globl "_nothing", .align 1, .label "_nothing",
    .align 1, .label "Lglobal7", .ascii [0x68, 0x69, 0]]

/-- Objects of eight globals, one of them without bytes. -/
theorem objects_globals_stock : stock.assembleData ⟨.macos, false⟩ = .ok stockLines ∧
    stock.globals.length = 8 ∧ IsDataSection stockLines ∧
    ∃ symbols, Symbols.of (Printer.of stock) .macos = .ok symbols ∧
      List.Forall₂ (stock.IsStored symbols) stock.globals (objects none stockLines) := by
  have built : Built stock := built_builtBy "stock" stockSteps
  have made : stock.assembleData ⟨.macos, false⟩ = .ok stockLines := by decide +kernel
  have defined := built.objects_globals made
  exact ⟨made, by decide +kernel, defined⟩

end Module

end SsaAmd64
