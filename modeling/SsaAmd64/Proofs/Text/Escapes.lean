/-
**Escaped byte strings are read back.**

A reader takes an escaped text from the left, piece by piece: a backslash begins an escape, of one
letter or of three octal digits, and every other character stands for itself. What is written for a
byte is read as one piece, whatever follows it, so that a text falls into the pieces that it has
been written in.

* `Text.pieces?`, `Text.unescape?`: the reader;
* `Text.Piece.Writes`: what a piece that is written for a byte is like;
* `Text.exists_writes`: every byte is written as such a piece;
* `Text.escape_lossless`: the text is printable, its quotes and backslashes belong to escapes, and
  it reads as the bytes that it was written for.
-/

import Mathlib.Data.List.Forall2
import SsaAmd64.Text.Escape

namespace SsaAmd64

namespace Text

/-! ### The reader -/

/-- Whether a character is one of the printable ones of seven bits. -/
def isPrintable (character : Char) : Bool :=
  ' ' ≤ character && character ≤ '~'

/-- The byte that a letter behind a backslash stands for. -/
def letterByte? : Char → Option UInt8
  | 'n' => some 0x0a
  | 't' => some 0x09
  | 'r' => some 0x0d
  | 'f' => some 0x0c
  | 'b' => some 0x08
  | '"' => some 0x22
  | '\\' => some 0x5c
  | _ => none

def octalDigit? (character : Char) : Option Nat :=
  if '0' ≤ character ∧ character ≤ '7' then some (character.toNat - '0'.toNat) else none

/-- The byte that three octal digits stand for, if it is one. -/
def octalByte? (first second third : Char) : Option UInt8 := do
  let value := 64 * (← octalDigit? first) + 8 * (← octalDigit? second) + (← octalDigit? third)
  if value < 256 then some (UInt8.ofNat value) else none

/-- What is read at once from an escaped text. -/
inductive Piece where
  /-- A character that stands for itself. -/
  | plain (character : Char)
  /-- A backslash and a letter. -/
  | letter (character : Char)
  /-- A backslash and three digits. -/
  | octal (first second third : Char)

namespace Piece

def text : Piece → List Char
  | plain character => [character]
  | letter character => ['\\', character]
  | octal first second third => ['\\', first, second, third]

def isEscape : Piece → Bool
  | plain _ => false
  | _ => true

/-- The byte that a piece stands for. -/
def byte? : Piece → Option UInt8
  | plain character =>
    if character.toNat < 128 then some (UInt8.ofNat character.toNat) else none
  | letter character => letterByte? character
  | octal first second third => octalByte? first second third

end Piece

/-- **The pieces of a text**, read from the left. -/
def pieces? : List Char → Option (List Piece)
  | [] => some []
  | character :: rest =>
    if character ≠ '\\' then (pieces? rest).map (.plain character :: ·)
    else match rest with
      | [] => none
      | first :: rest =>
        if (letterByte? first).isSome then (pieces? rest).map (.letter first :: ·)
        else match rest with
          | second :: third :: rest => (pieces? rest).map (.octal first second third :: ·)
          | _ => none

/-- **The bytes that an escaped text stands for.** -/
def unescape? (text : String) : Option (List UInt8) := do
  (← pieces? text.toList).mapM Piece.byte?

/-! ### What is written for a byte -/

/-- **A piece is what is written for a byte.** It is printable, it is an escape if there is a quote
or a backslash in it, and it is read again whatever follows it. -/
structure Piece.Writes (piece : Piece) (byte : UInt8) : Prop where
  text : piece.text = escapeByte byte
  byte : piece.byte? = some byte
  printable : ∀ character ∈ piece.text, isPrintable character = true
  marked : '"' ∈ piece.text ∨ '\\' ∈ piece.text → piece.isEscape = true
  read : ∀ rest, pieces? (piece.text ++ rest) = (pieces? rest).map (piece :: ·)

theorem toNat_ofNat_byte (byte : UInt8) : (Char.ofNat byte.toNat).toNat = byte.toNat := by
  have valid : byte.toNat.isValidChar := Or.inl (Nat.lt_trans byte.toNat_lt (by decide))
  rw [Char.ofNat, dif_pos valid]
  rfl

/-! ### Plain characters -/

theorem lt_of_isPrintable {character : Char} (printable : isPrintable character = true) :
    character.toNat < 128 := by
  have last : character ≤ '~' := of_decide_eq_true (Bool.and_eq_true_iff.mp printable).2
  exact Nat.lt_of_le_of_lt (UInt32.le_iff_toNat_le.mp (Char.le_def.mp last)) (by decide)

theorem of_isPlain {character : Char} (plain : isPlain character = true) :
    isPrintable character = true ∧ character ≠ '"' ∧ character ≠ '\\' := by
  have listed : plainPunctuation.all
      fun other => isPrintable other && other != '"' && other != '\\' := by decide
  rw [isPlain, Bool.or_eq_true, List.contains_iff_mem] at plain
  rcases plain with alphanumeric | member
  · have different : ∀ {other : Char}, other.isAlphanum = false → character ≠ other := by
      rintro other mark rfl
      rw [mark] at alphanumeric
      cases alphanumeric
    refine ⟨?_, different rfl, different rfl⟩
    delta Char.isAlphanum Char.isAlpha Char.isUpper Char.isLower Char.isDigit at alphanumeric
    simp only [Bool.or_eq_true, Bool.and_eq_true, decide_eq_true_eq] at alphanumeric
    simp only [isPrintable, Char.le_def, Bool.and_eq_true, decide_eq_true_eq]
    grind
  · have marked := List.all_eq_true.mp listed character member
    simp only [Bool.and_eq_true, bne_iff_ne] at marked
    exact and_assoc.mp marked

theorem writes_plain {byte : UInt8} (plain : isPlain (Char.ofNat byte.toNat) = true) :
    (Piece.plain (Char.ofNat byte.toNat)).Writes byte := by
  obtain ⟨printable, quote, backslash⟩ := of_isPlain plain
  constructor
  case text => rw [escapeByte, if_pos plain, Piece.text]
  case byte =>
    rw [Piece.byte?, if_pos (lt_of_isPrintable printable), toNat_ofNat_byte, UInt8.ofNat_toNat]
  case printable => exact List.forall_mem_singleton.mpr printable
  case marked =>
    rintro (inside | inside)
    · exact absurd (List.mem_singleton.mp inside).symm quote
    · exact absurd (List.mem_singleton.mp inside).symm backslash
  case read =>
    intro rest
    rw [Piece.text, List.singleton_append, pieces?.eq_def]
    exact if_pos backslash

/-! ### Escapes -/

/-- The letter of an escape is read as the character that it is written for. -/
theorem of_escapeLetter? {character letter : Char} (found : escapeLetter? character = some letter) :
    letterByte? letter = some (UInt8.ofNat character.toNat) ∧ isPrintable letter = true := by
  unfold escapeLetter? at found
  split at found <;> cases found <;> decide

theorem writes_letter {byte : UInt8} {letter : Char}
    (special : isPlain (Char.ofNat byte.toNat) = false)
    (found : escapeLetter? (Char.ofNat byte.toNat) = some letter) :
    (Piece.letter letter).Writes byte := by
  obtain ⟨known, printable⟩ := of_escapeLetter? found
  rw [toNat_ofNat_byte, UInt8.ofNat_toNat] at known
  constructor
  case text => simp only [escapeByte, special, found, Bool.false_eq_true, if_false, Piece.text]
  case byte => exact known
  case printable => exact List.forall_mem_cons.mpr ⟨rfl, List.forall_mem_singleton.mpr printable⟩
  case marked => exact fun _ => rfl
  case read =>
    intro rest
    have isSome : (letterByte? letter).isSome = true := by rw [known, Option.isSome_some]
    rw [Piece.text, List.cons_append, pieces?.eq_def]
    exact if_pos isSome

/-- The last digit of a number comes behind those of the rest of it. -/
theorem padded_succ {base count : Nat} (several : 1 < base) (positive : 0 < count) (value : Nat) :
    padded base (count + 1) value =
      padded base count (value / base) ++ [(value % base).digitChar] := by
  obtain ⟨count, rfl⟩ := Nat.exists_eq_succ_of_ne_zero (Nat.ne_of_gt positive)
  by_cases small : value < base
  · rw [Nat.div_eq_of_lt small, Nat.mod_eq_of_lt small]
    simp [padded, Nat.toDigits_of_lt_base small, List.replicate_succ']
  · rw [padded, padded, Nat.toDigits_of_base_le several (Nat.le_of_not_lt small)]
    simp

theorem padded_octal {value : Nat} (small : value < 512) : padded 8 3 value =
    [(value / 64).digitChar, (value / 8 % 8).digitChar, (value % 8).digitChar] := by
  have first : value / 8 / 8 < 8 := by omega
  rw [padded_succ (by decide) (by decide), padded_succ (by decide) (by decide), padded,
    Nat.toDigits_of_lt_base first, Nat.div_div_eq_div_mul]
  rfl

/-- An octal digit is read as its value, and never taken for the letter of an escape. -/
theorem of_octalDigit : ∀ digit < 8, octalDigit? digit.digitChar = some digit ∧
    isPrintable digit.digitChar = true ∧ letterByte? digit.digitChar = none := by
  decide

theorem writes_octal {byte : UInt8} (special : isPlain (Char.ofNat byte.toNat) = false)
    (other : escapeLetter? (Char.ofNat byte.toNat) = none) :
    (Piece.octal (byte.toNat / 64).digitChar (byte.toNat / 8 % 8).digitChar
      (byte.toNat % 8).digitChar).Writes byte := by
  have small := byte.toNat_lt
  obtain ⟨first, printable, unlike⟩ := of_octalDigit (byte.toNat / 64) (by omega)
  obtain ⟨second, printable', _⟩ := of_octalDigit (byte.toNat / 8 % 8) (by omega)
  obtain ⟨third, printable'', _⟩ := of_octalDigit (byte.toNat % 8) (by omega)
  constructor
  case text =>
    simp only [escapeByte, special, other, Bool.false_eq_true, if_false, Piece.text]
    rw [padded_octal (by omega)]
  case byte =>
    have value : 64 * (byte.toNat / 64) + 8 * (byte.toNat / 8 % 8) + byte.toNat % 8 =
        byte.toNat := by omega
    simp only [Piece.byte?, octalByte?, first, second, third, Option.bind_eq_bind,
      Option.bind_some, value]
    rw [if_pos small, UInt8.ofNat_toNat]
  case printable =>
    have backslash : isPrintable '\\' = true := rfl
    simp [Piece.text, backslash, printable, printable', printable'']
  case marked => exact fun _ => rfl
  case read =>
    intro rest
    have isNone : ¬(letterByte? (byte.toNat / 64).digitChar).isSome = true := by simp [unlike]
    rw [Piece.text, List.cons_append, pieces?.eq_def]
    exact if_neg isNone

/-- **Every byte is written as a piece.** -/
theorem exists_writes (byte : UInt8) : ∃ piece : Piece, piece.Writes byte := by
  cases plain : isPlain (Char.ofNat byte.toNat) with
  | true => exact ⟨_, writes_plain plain⟩
  | false =>
    cases found : escapeLetter? (Char.ofNat byte.toNat) with
    | some letter => exact ⟨_, writes_letter plain found⟩
    | none => exact ⟨_, writes_octal plain found⟩

/-! ### What is written for bytes -/

section

variable {pieces : List Piece} {bytes : List UInt8}

/-- A byte string is written as one piece for each byte. -/
theorem exists_pieces (bytes : List UInt8) : ∃ pieces, List.Forall₂ Piece.Writes pieces bytes := by
  induction bytes with
  | nil => exact ⟨[], .nil⟩
  | cons byte bytes ih =>
    obtain ⟨piece, writes⟩ := exists_writes byte
    obtain ⟨pieces, written⟩ := ih
    exact ⟨piece :: pieces, .cons writes written⟩

theorem text_of_writes (written : List.Forall₂ Piece.Writes pieces bytes) :
    pieces.flatMap Piece.text = bytes.flatMap escapeByte := by
  induction written with
  | nil => rfl
  | cons writes _ ih => rw [List.flatMap_cons, List.flatMap_cons, writes.text, ih]

/-- **A text falls into the pieces that it has been written in**, whatever follows it. -/
theorem pieces?_append (written : List.Forall₂ Piece.Writes pieces bytes) (rest : List Char) :
    pieces? (bytes.flatMap escapeByte ++ rest) = (pieces? rest).map (pieces ++ ·) := by
  induction written with
  | nil => simp
  | cons writes _ ih =>
    rw [List.flatMap_cons, List.append_assoc, ← writes.text, writes.read, ih, Option.map_map]
    rfl

theorem mapM_byte? (written : List.Forall₂ Piece.Writes pieces bytes) :
    pieces.mapM Piece.byte? = some bytes := by
  induction written with
  | nil => rfl
  | cons writes _ ih =>
    rw [List.mapM_cons, writes.byte, ih]
    rfl

end

theorem toList_escape (bytes : List UInt8) :
    (escape bytes).toList = bytes.flatMap escapeByte := by
  rw [escape, String.toList_ofList]

/-- An escaped text is printable. -/
theorem isPrintable_of_mem_escape (bytes : List UInt8) :
    ∀ character ∈ (escape bytes).toList, isPrintable character = true := by
  intro character member
  rw [toList_escape] at member
  obtain ⟨byte, _, inside⟩ := List.mem_flatMap.mp member
  obtain ⟨piece, writes⟩ := exists_writes byte
  exact writes.printable character (writes.text ▸ inside)

/-- **What has been escaped is read back.** -/
theorem unescape?_escape (bytes : List UInt8) : unescape? (escape bytes) = some bytes := by
  obtain ⟨pieces, written⟩ := exists_pieces bytes
  have read := pieces?_append written []
  rw [List.append_nil, pieces?, Option.map_some, List.append_nil] at read
  rw [unescape?, toList_escape, read]
  exact mapM_byte? written

/-- **Escaping loses nothing, and its text is safe between quotes.** The text is printable; read
from the left it falls into pieces, whatever follows it, and only those that are escapes have a
quote or a backslash in them; and it reads as the bytes that it was written for, so that other bytes
have another text. -/
theorem escape_lossless (bytes : List UInt8) :
    (∀ character ∈ (escape bytes).toList, isPrintable character = true) ∧
    (∃ pieces : List Piece, pieces.flatMap Piece.text = (escape bytes).toList ∧
      (∀ rest, pieces? ((escape bytes).toList ++ rest) = (pieces? rest).map (pieces ++ ·)) ∧
      ∀ piece ∈ pieces, '"' ∈ piece.text ∨ '\\' ∈ piece.text → piece.isEscape = true) ∧
    unescape? (escape bytes) = some bytes ∧
    ∀ other, escape other = escape bytes ↔ other = bytes := by
  obtain ⟨pieces, written⟩ := exists_pieces bytes
  have each : ∀ piece ∈ pieces, ∃ byte, piece.Writes byte :=
    ((List.forall₂_and_left _ _).mp (written.imp fun _ byte writes => ⟨⟨byte, writes⟩, writes⟩)).1
  refine ⟨isPrintable_of_mem_escape bytes, ⟨pieces, ?_, ?_, ?_⟩, unescape?_escape bytes,
    fun other => ⟨?_, congrArg escape⟩⟩
  · rw [toList_escape, text_of_writes written]
  · rw [toList_escape]
    exact pieces?_append written
  · intro piece member
    obtain ⟨byte, writes⟩ := each piece member
    exact writes.marked
  · intro same
    have read := unescape?_escape other
    rw [same, unescape?_escape] at read
    exact (Option.some.inj read).symm

/-- A digit behind an octal escape is not taken for a part of it. -/
example : escape [0x25, 0x0a, 0x00, 0x37, 0x22, 0xff] = "%\\n\\0007\\\"\\377" := by
  decide +kernel

end Text

end SsaAmd64
