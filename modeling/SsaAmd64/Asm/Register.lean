/-
**Registers and operand widths.**

General-purpose registers have one name for each operand width; vector registers have a single one.
-/

namespace SsaAmd64

namespace Asm

/-- Size of an integer operand. -/
inductive Width where
  | byte
  | word
  | long
  | quad
deriving DecidableEq

namespace Width

def bytes : Width → Nat
  | byte => 1
  | word => 2
  | long => 4
  | quad => 8

/-- The letter that names the width in a mnemonic. -/
def suffix : Width → String
  | byte => "b"
  | word => "w"
  | long => "l"
  | quad => "q"

def all : List Width := [byte, word, long, quad]

/-- The width that a mnemonic's last letter names. -/
def ofSuffix? (suffix : String) : Option Width :=
  all.find? fun width => width.suffix == suffix

theorem ofSuffix?_suffix (width : Width) : ofSuffix? width.suffix = some width := by
  cases width <;> decide

/-- The width of a value of this many bytes, if a register holds such a value. -/
def ofBytes? : Nat → Option Width
  | 1 => some byte
  | 2 => some word
  | 4 => some long
  | 8 => some quad
  | _ => none

theorem ofBytes?_eq_some_iff (count : Nat) (width : Width) :
    ofBytes? count = some width ↔ width.bytes = count := by
  constructor
  · intro found
    unfold ofBytes? at found
    split at found <;> simp_all [bytes] <;> subst found <;> rfl
  · rintro rfl
    cases width <;> rfl

end Width

/-- The general-purpose registers and the vector registers. -/
inductive Register where
  | rax
  | rbx
  | rcx
  | rdx
  | rsi
  | rdi
  | rbp
  | rsp
  | r8
  | r9
  | r10
  | r11
  | r12
  | r13
  | r14
  | r15
  | xmm (number : Nat)
deriving DecidableEq

namespace Register

/-- Whether the register is a vector register. -/
def isVector : Register → Bool
  | xmm _ => true
  | _ => false

/-- The sixteen general-purpose registers. -/
def general : List Register :=
  [rax, rbx, rcx, rdx, rsi, rdi, rbp, rsp, r8, r9, r10, r11, r12, r13, r14, r15]

/-- The name of one of the eight older registers, from its two-letter stem. The four that hold data
have a low byte named after their first letter. -/
private def olderName (stem : String) (low : String) : Width → String
  | .quad => "r" ++ stem
  | .long => "e" ++ stem
  | .word => stem
  | .byte => low

/-- The name of one of the eight numbered registers. -/
private def numberedName (stem : String) : Width → String
  | .quad => stem
  | .long => stem ++ "d"
  | .word => stem ++ "w"
  | .byte => stem ++ "b"

/-- The name of a register at a width, without the sigil. -/
def name : Register → Width → String
  | rax => olderName "ax" "al"
  | rbx => olderName "bx" "bl"
  | rcx => olderName "cx" "cl"
  | rdx => olderName "dx" "dl"
  | rsi => olderName "si" "sil"
  | rdi => olderName "di" "dil"
  | rbp => olderName "bp" "bpl"
  | rsp => olderName "sp" "spl"
  | r8 => numberedName "r8"
  | r9 => numberedName "r9"
  | r10 => numberedName "r10"
  | r11 => numberedName "r11"
  | r12 => numberedName "r12"
  | r13 => numberedName "r13"
  | r14 => numberedName "r14"
  | r15 => numberedName "r15"
  | xmm number => fun _ => "xmm" ++ toString number

/-- The vector register with a name. Its number is one byte in decimal digits. -/
def vectorNamed? (name : String) : Option Register :=
  match name.toList with
  | 'x' :: 'm' :: 'm' :: digits =>
    if digits.all Char.isDigit then
      ((String.ofList digits).toNat?.filter fun number => number < 256).map xmm
    else none
  | _ => none

/-- The register with a name at full width. -/
def ofName? (name : String) : Option Register :=
  (general.find? fun register => register.name .quad == name).or (vectorNamed? name)

end Register

end Asm

end SsaAmd64
