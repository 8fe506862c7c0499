/-
**Target platforms and their calling conventions.**
-/

import SsaAmd64.Asm.Register

namespace SsaAmd64

/-- How arguments and results cross a call. -/
inductive Convention where
  | systemV
  | win64
deriving DecidableEq

namespace Convention

def text : Convention → String
  | systemV => "System V"
  | win64 => "Win64"

/-- General-purpose registers that carry arguments, in order. -/
def generalRegisters : Convention → List Asm.Register
  | systemV => [.rdi, .rsi, .rdx, .rcx, .r8, .r9]
  | win64 => [.rcx, .rdx, .r8, .r9]

/-- Number of vector registers that carry arguments. -/
def vectorCount : Convention → Nat
  | systemV => 8
  | win64 => 4

/-- Vector registers that carry arguments, in order. -/
def vectorRegisters (convention : Convention) : List Asm.Register :=
  (List.range convention.vectorCount).map .xmm

/-- The register that carries the address of a result returned in memory: the first argument
register. -/
def hiddenRegister : Convention → Asm.Register
  | systemV => .rdi
  | win64 => .rcx

theorem hiddenRegister_eq_head (convention : Convention) :
    convention.generalRegisters.head? = some convention.hiddenRegister := by
  cases convention <;> rfl

end Convention

/-- Operating systems that code is generated for. -/
inductive Platform where
  | linux
  | macos
  | windows
deriving DecidableEq

namespace Platform

def all : List Platform := [linux, macos, windows]

/-- The name by which options and the command line select a platform. -/
def name : Platform → String
  | linux => "linux"
  | macos => "macos"
  | windows => "windows"

def ofName? (name : String) : Option Platform :=
  all.find? fun platform => platform.name == name

def convention : Platform → Convention
  | linux => .systemV
  | macos => .systemV
  | windows => .win64

/-- What stands before every external symbol. -/
def symbolPrefix : Platform → String
  | macos => "_"
  | _ => ""

/-- What stands before every label that is private to the assembly. -/
def labelPrefix : Platform → String
  | macos => "L"
  | _ => ".L"

/-- Whether the directives of ELF are written. -/
def isElf : Platform → Bool
  | linux => true
  | _ => false

theorem ofName?_name (platform : Platform) : ofName? platform.name = some platform := by
  cases platform <;> decide

end Platform

end SsaAmd64
