/-
**Operations of the intermediate representation.**

Binary operations, integer comparisons and conversions with their names, and the kinds of
instructions that use them.
-/

import SsaAmd64.Ty.Basic

namespace SsaAmd64

/-- Operations on two values of one type. -/
inductive BinaryOp where
  | add
  | sub
  | mul
  | sdiv
  | udiv
  | srem
  | urem
  | fadd
  | fsub
  | fmul
  | fdiv
  | frem
  | shl
  | lshr
  | ashr
  | and
  | or
  | xor
deriving DecidableEq

namespace BinaryOp

def all : List BinaryOp :=
  [add, sub, mul, sdiv, udiv, srem, urem, fadd, fsub, fmul, fdiv, frem, shl, lshr, ashr, and, or,
    xor]

def name : BinaryOp → String
  | add => "add"
  | sub => "sub"
  | mul => "mul"
  | sdiv => "sdiv"
  | udiv => "udiv"
  | srem => "srem"
  | urem => "urem"
  | fadd => "fadd"
  | fsub => "fsub"
  | fmul => "fmul"
  | fdiv => "fdiv"
  | frem => "frem"
  | shl => "shl"
  | lshr => "lshr"
  | ashr => "ashr"
  | and => "and"
  | or => "or"
  | xor => "xor"

def ofName? (name : String) : Option BinaryOp :=
  all.find? fun operation => operation.name == name

/-- Whether the operands are floats. -/
def isFloat : BinaryOp → Bool
  | fadd | fsub | fmul | fdiv | frem => true
  | _ => false

/-- Whether the operands are read as signed integers. -/
def isSigned : BinaryOp → Bool
  | sdiv | srem | ashr => true
  | _ => false

end BinaryOp

/-- Comparisons of integers. -/
inductive Predicate where
  | eq
  | neq
  | ugt
  | uge
  | ult
  | ule
  | sgt
  | sge
  | slt
  | sle
deriving DecidableEq

namespace Predicate

def all : List Predicate := [eq, neq, ugt, uge, ult, ule, sgt, sge, slt, sle]

def name : Predicate → String
  | eq => "eq"
  | neq => "neq"
  | ugt => "ugt"
  | uge => "uge"
  | ult => "ult"
  | ule => "ule"
  | sgt => "sgt"
  | sge => "sge"
  | slt => "slt"
  | sle => "sle"

def ofName? (name : String) : Option Predicate :=
  all.find? fun predicate => predicate.name == name

/-- Whether the operands are read as signed integers. -/
def isSigned : Predicate → Bool
  | sgt | sge | slt | sle => true
  | _ => false

end Predicate

/-- Conversions between types. -/
inductive Conversion where
  | sext
  | zext
  | trunc
  | bitcast
  | fext
  | ftrunc
  | ftoui
  | ftosi
  | uitof
  | sitof
  | ptrtoint
  | inttoptr
deriving DecidableEq

namespace Conversion

def all : List Conversion :=
  [sext, zext, trunc, bitcast, fext, ftrunc, ftoui, ftosi, uitof, sitof, ptrtoint, inttoptr]

def name : Conversion → String
  | sext => "sext"
  | zext => "zext"
  | trunc => "trunc"
  | bitcast => "bitcast"
  | fext => "fext"
  | ftrunc => "ftrunc"
  | ftoui => "ftoui"
  | ftosi => "ftosi"
  | uitof => "uitof"
  | sitof => "sitof"
  | ptrtoint => "ptrtoint"
  | inttoptr => "inttoptr"

def ofName? (name : String) : Option Conversion :=
  all.find? fun conversion => conversion.name == name

end Conversion

/-- Kinds of instructions, with what they carry besides their operands. -/
inductive Opcode where
  | alloc (storage : Ty)
  | load
  | store
  | binary (operation : BinaryOp)
  | compare (predicate : Predicate)
  | convert (conversion : Conversion) (target : Ty)
  /-- Address of an element inside an object. -/
  | gep
  | call
  | br
  | condbr
  | ret
  | phi (type : Ty)
  | unreachable
deriving DecidableEq

namespace Opcode

/-- Whether the instruction ends the control flow of a block. -/
def isTerminator : Opcode → Bool
  | br | condbr | ret | unreachable => true
  | _ => false

/-- Whether the instruction jumps to blocks that it names. -/
def isBranch : Opcode → Bool
  | br | condbr => true
  | _ => false

def isPhi : Opcode → Bool
  | phi _ => true
  | _ => false

def isGep : Opcode → Bool
  | gep => true
  | _ => false

/-- Whether the instruction has a result that can be named. -/
def isValue : Opcode → Bool
  | store | br | condbr | ret | unreachable => false
  | _ => true

/-- Whether the type of the result is made from the type of the first operand. -/
def isDerived : Opcode → Bool
  | load | binary _ | gep | call => true
  | _ => false

def mnemonic : Opcode → String
  | alloc _ => "alloc"
  | load => "load"
  | store => "store"
  | binary operation => operation.name
  | compare _ => "icmp"
  | convert conversion _ => conversion.name
  | gep => "gep"
  | call => "call"
  | br => "br"
  | condbr => "condbr"
  | ret => "ret"
  | phi _ => "phi"
  | unreachable => "unreachable"

end Opcode

end SsaAmd64
