/-
**The text of assembly.**

AT&T notation: sigils before registers and constants, widths as suffixes, destinations last. A label
is written flush left and everything else is indented by four blanks.

* `Asm.render_append`: the text of a program is the text of its parts.
-/

import SsaAmd64.Asm.Line
import SsaAmd64.Text.Escape

namespace SsaAmd64

namespace Asm

/-- A register at its full width, with the sigil. -/
def Register.text (register : Register) : String :=
  "%" ++ register.name .quad

/-- A displacement of zero is not written. -/
def Operand.text : Operand → String
  | .register name width => "%" ++ name.name width
  | .immediate value => "$" ++ toString value
  | .memory base displacement =>
    (if displacement = 0 then "" else toString displacement) ++ "(" ++ base.text ++ ")"
  | .relative symbol => symbol ++ "(%rip)"

def Condition.suffix : Condition → String
  | equal => "e"
  | notEqual => "ne"
  | above => "a"
  | aboveEqual => "ae"
  | below => "b"
  | belowEqual => "be"
  | greater => "g"
  | greaterEqual => "ge"
  | less => "l"
  | lessEqual => "le"

def Condition.ofSuffix? (suffix : String) : Option Condition :=
  Condition.all.find? fun condition => condition.suffix == suffix

def Arithmetic.mnemonic : Arithmetic → String
  | add => "add"
  | sub => "sub"
  | imul => "imul"
  | and => "and"
  | or => "or"
  | xor => "xor"
  | cmp => "cmp"
  | test => "test"

def Arithmetic.ofMnemonic? (mnemonic : String) : Option Arithmetic :=
  Arithmetic.all.find? fun operation => operation.mnemonic == mnemonic

def Shift.mnemonic : Shift → String
  | left => "shl"
  | logicalRight => "shr"
  | arithmeticRight => "sar"

def Shift.ofMnemonic? (mnemonic : String) : Option Shift :=
  Shift.all.find? fun operation => operation.mnemonic == mnemonic

def VectorConversion.mnemonic : VectorConversion → String
  | singleToDouble => "cvtss2sd"
  | doubleToSingle => "cvtsd2ss"
  | singleToInt => "cvttss2siq"
  | doubleToInt => "cvttsd2siq"
  | intToSingle => "cvtsi2ssq"
  | intToDouble => "cvtsi2sdq"

def VectorConversion.ofMnemonic? (mnemonic : String) : Option VectorConversion :=
  VectorConversion.all.find? fun operation => operation.mnemonic == mnemonic

/-- The directive that stores one scalar of a width. -/
def Width.dataDirective : Width → String
  | byte => ".byte"
  | word => ".short"
  | long => ".long"
  | quad => ".quad"

/-- An extending load. Writing the low half of a register clears the upper half, so an unsigned
32-bit load is a plain move. -/
def extendText (signed : Bool) (width : Width) (source : Operand) (target : Register) : String :=
  match signed, width with
  | _, .quad => "movq " ++ source.text ++ ", " ++ target.text
  | false, .long => "movl " ++ source.text ++ ", %" ++ target.name .long
  | true, .long => "movslq " ++ source.text ++ ", " ++ target.text
  | signed, width =>
    "mov" ++ (if signed then "s" else "z") ++ width.suffix ++ "q " ++ source.text ++ ", " ++
      target.text

/-- The text of a line, without indentation. -/
def Line.text : Line → String
  | directive text => text
  | globl symbol => ".globl " ++ symbol
  | align boundary => ".balign " ++ toString boundary
  | alignCode boundary => ".balign " ++ toString boundary ++ ", 0x90"
  | functionType symbol => ".type " ++ symbol ++ ", @function"
  | label name => name ++ ":"
  | ascii content => ".ascii \"" ++ Text.escape content ++ "\""
  | data width value => width.dataDirective ++ " " ++ toString value
  | bytes content => ".byte " ++ ", ".intercalate (content.map fun byte => toString byte.toNat)
  | address symbol => ".quad " ++ symbol
  | zero count => ".zero " ++ toString count
  | comment text => "# " ++ text
  | mov width source target => "mov" ++ width.suffix ++ " " ++ source.text ++ ", " ++ target.text
  | movabs value target => "movabsq $" ++ toString value ++ ", " ++ target.text
  | extend signed width source target => extendText signed width source target
  | lea source target => "leaq " ++ source.text ++ ", " ++ target.text
  | push register => "pushq " ++ register.text
  | pop register => "popq " ++ register.text
  | arithmetic operation width source target =>
    operation.mnemonic ++ width.suffix ++ " " ++ source.text ++ ", " ++ target.text
  | scale factor source target =>
    "imulq $" ++ toString factor ++ ", " ++ source.text ++ ", " ++ target.text
  | shift operation width target =>
    operation.mnemonic ++ width.suffix ++ " %cl, %" ++ target.name width
  | negate width target => "neg" ++ width.suffix ++ " %" ++ target.name width
  | cqto => "cqto"
  | divide signed width source =>
    (if signed then "i" else "") ++ "div" ++ width.suffix ++ " " ++ source.text
  | set condition target => "set" ++ condition.suffix ++ " %" ++ target.name .byte
  | vector operation source target =>
    operation.mnemonic ++ " " ++ source.text ++ ", " ++ target.text
  | jump target => "jmp " ++ target
  | jumpIf condition target => "j" ++ condition.suffix ++ " " ++ target
  | call symbol => "call " ++ symbol
  | ret => "ret"
  | trap => "ud2"

/-- A line as it is written, closed by a line end. -/
def Line.rendered : Line → String
  | label name => (label name).text ++ "\n"
  | line => "    " ++ line.text ++ "\n"

/-- The text of a program. -/
def render (lines : List Line) : String :=
  String.join (lines.map Line.rendered)

theorem render_append (first second : List Line) :
    render (first ++ second) = render first ++ render second := by
  simp [render, String.join_append]

end Asm

end SsaAmd64
