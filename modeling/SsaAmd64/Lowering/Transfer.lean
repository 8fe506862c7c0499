/-
**Moving values.**

Values go from their sources into registers, from registers into home slots, and from memory to
memory in pieces of 8, 4, 2 and 1 bytes through `%rax`, so no base register may be `%rax`.

* `Lowering.loadInt`: a value into all 64 bits of a register;
* `Lowering.storeRegister`: the low bytes of a register into a home slot;
* `Lowering.copyTo`: a value of any size into memory.
-/

import SsaAmd64.Lowering.Context

namespace SsaAmd64

namespace Lowering

open Asm

/-! ### Pieces of memory -/

/-- The widest piece that fits the bytes that remain. -/
def pieceWidth (remaining : Nat) : Width :=
  if 8 ≤ remaining then .quad else if 4 ≤ remaining then .long
  else if 2 ≤ remaining then .word else .byte

theorem pieceWidth_pos (remaining : Nat) : 0 < (pieceWidth remaining).bytes := by
  cases pieceWidth remaining <;> decide

/-- The pieces that `remaining` bytes from an offset on are moved in, in order. -/
def pieces (offset remaining : Nat) : List (Nat × Width) :=
  if remaining = 0 then []
  else
    let width := pieceWidth remaining
    (offset, width) :: pieces (offset + width.bytes) (remaining - width.bytes)
termination_by remaining
decreasing_by
  have := pieceWidth_pos remaining
  omega

/-- Copies `size` bytes between memory locations. -/
def copyMemory (sourceBase : Register) (sourceStart : Int) (targetBase : Register)
    (targetStart : Int) (size : Nat) : List Line :=
  (pieces 0 size).flatMap fun (offset, width) =>
    [.mov width (.memory sourceBase (sourceStart + offset)) (.register .rax width),
      .mov width (.register .rax width) (.memory targetBase (targetStart + offset))]

/-- The signed reading of the bytes of a piece. -/
def pieceValue (width : Width) (bytes : List UInt8) : Int :=
  (Bytes.toNat bytes : Int).bmod (patternCount (8 * width.bytes))

/-- Stores the constant bytes of one piece. Only a constant of 64 bits has to go through a
register. -/
def storePiece (width : Width) (bytes : List UInt8) (target : Operand) : List Line :=
  let value := pieceValue width bytes
  if fits32 value then [.mov width (.immediate value) target]
  else [.movabs value .rax, .mov width (.full .rax) target]

/-- Stores constant bytes. -/
def storeBytes (bytes : List UInt8) (base : Register) (start : Int) : List Line :=
  (pieces 0 bytes.length).flatMap fun (offset, width) =>
    storePiece width ((bytes.drop offset).take width.bytes) (.memory base (start + offset))

/-! ### Registers -/

/-- Loads a constant. -/
def loadImmediate (value : Int) (target : Register) : Line :=
  if fits32 value then .mov .quad (.immediate value) (.full target) else .movabs value target

/-- The bits of a type whose values are as wide as a register width. -/
def bitsOf (type : Ty) (width : Width) : Nat :=
  type.width?.getD (8 * width.bytes)

/-- A literal of a number of bits as a word, sign-extended if asked. -/
def literalWord (literal : Literal) (bits : Nat) (signed : Bool) : Int :=
  let raw := Bytes.toNat (literal.image 8)
  if signed ∧ bits < 64 ∧ raw.testBit (bits - 1) then (raw : Int) - patternCount bits
  else signed64 raw

/-- Loads a value into all 64 bits of a register, extended by its sign or by zeros. A bit in memory
is zero or one, so its signed reading is the negation of the unsigned one. -/
def loadInt (lowering : Lowering) (id : ValueId) (target : Register) (signed : Bool) :
    Except Failure (List Line) := do
  let type := lowering.subject.typeOf id
  match ← lowering.source id with
  | .symbol symbol => return [.lea (.relative symbol) target]
  | .literal literal =>
    let width ← lowering.registerWidth type
    return [loadImmediate (literalWord literal (bitsOf type width) signed) target]
  | .slot displacement =>
    let width ← lowering.registerWidth type
    let isBit := type = .int 1
    return .extend (signed && !isBit) width (.memory .rbp displacement) target ::
      (if signed && isBit then [.negate .quad target] else [])

/-- Stores the low bytes of a register into the home slot of a value. -/
def storeRegister (lowering : Lowering) (register : Register) (id : ValueId) :
    Except Failure (List Line) := do
  let displacement ← lowering.slot id
  let width ← lowering.registerWidth (lowering.subject.typeOf id)
  return [.mov width (.register register width) (.memory .rbp displacement)]

/-- Stores `size` bytes of a value at a displacement from a base register. -/
def copyTo (lowering : Lowering) (id : ValueId) (base : Register) (start : Int) (size : Nat) :
    Except Failure (List Line) := do
  match ← lowering.source id with
  | .slot displacement => return copyMemory .rbp displacement base start size
  | .literal literal => return storeBytes (literal.image size) base start
  | .symbol symbol =>
    return [.lea (.relative symbol) .rax, .mov .quad (.full .rax) (.memory base start)]

end Lowering

end SsaAmd64
