/-
**Call plans.**

A plan fixes where every argument and the result of a call live. Caller and callee compute it from
the same signature, so its stack offsets are relative to the start of the outgoing argument area.

* `Convention.classify`: how a value of a type crosses a call;
* `Convention.plan`: the plan for the types that are passed, which for a variadic callee extend its
  parameters.

System V hands out registers of each kind on their own and rejects aggregates of at most sixteen
bytes. Win64 has one position for each argument; an aggregate of 1, 2, 4 or 8 bytes travels like an
integer, and any other goes by the address of a copy that the caller makes above the stack
arguments.
-/

import SsaAmd64.Abi.Platform
import SsaAmd64.Layout.Basic

namespace SsaAmd64

/-- Why a value cannot cross a call. -/
inductive AbiError where
  | aggregateInRegisters (type : Ty)
  | unsupportedType (type : Ty) (convention : Convention)
  | layout (error : LayoutError)
deriving DecidableEq

/-- The report of an error. -/
def AbiError.message : AbiError → String
  | aggregateInRegisters type =>
    "Aggregates passed or returned in registers are not supported: `" ++ type.text ++ "`"
  | unsupportedType type convention =>
    "Type `" ++ type.text ++ "` cannot be passed or returned by the " ++ convention.text ++
      " calling convention"
  | layout error => error.message

/-- How a value crosses a call. -/
inductive Passing where
  | integer
  | vector
  | memory
deriving DecidableEq

/-- Where an argument, or the address of it, is placed. -/
inductive Place where
  | general (register : Asm.Register)
  /-- A vector register, whose bits are also loaded into `companion` if there is one. -/
  | vector (register : Asm.Register) (companion : Option Asm.Register)
  /-- An offset into the argument area. -/
  | stack (offset : Nat)
deriving DecidableEq

structure ArgumentPlan where
  passing : Passing
  place : Place
  /-- The offset of the caller's copy, where `place` holds the address of one. -/
  copy : Option Nat
deriving DecidableEq

/-- Whether an argument sits in a vector register. -/
def ArgumentPlan.inVector (plan : ArgumentPlan) : Bool :=
  match plan.place with
  | .vector .. => true
  | _ => false

structure CallPlan where
  arguments : List ArgumentPlan
  /-- How the result comes back; none if there is no result. -/
  result : Option Passing
  /-- Size of the argument area, a multiple of sixteen. -/
  stackSize : Nat
  /-- Number of vector registers that hold arguments. -/
  vectorCount : Nat
deriving DecidableEq

namespace Convention

/-- A layout as a step of planning. -/
def sizeToPass (type : Ty) : Except AbiError Nat :=
  type.size.mapError .layout

def alignToPass (type : Ty) : Except AbiError Nat :=
  type.align.mapError .layout

/-- Whether a general-purpose register holds exactly this many bytes. -/
def fillsRegister (size : Nat) : Bool :=
  (Asm.Width.ofBytes? size).isSome

/-- How a value of a type crosses a call under System V. -/
def classifySystemV (type : Ty) : Except AbiError Passing :=
  match type with
  | .float _ => .ok .vector
  | .pointer _ => .ok .integer
  | .int width =>
    if width ≤ 64 then do
      if fillsRegister (← sizeToPass type) then return .integer
      else throw (.unsupportedType type .systemV)
    else .error (.unsupportedType type .systemV)
  | .array .. => aggregate
  | .struct .. => aggregate
  | _ => .error (.unsupportedType type .systemV)
where
  aggregate : Except AbiError Passing := do
    if 16 < (← sizeToPass type) then return .memory else throw (.aggregateInRegisters type)

/-- How a value of a type crosses a call under Win64. -/
def classifyWin64 (type : Ty) : Except AbiError Passing :=
  match type with
  | .float _ => .ok .vector
  | .int _ => bySize
  | .pointer _ => bySize
  | .array .. => bySize
  | .struct .. => bySize
  | _ => .error (.unsupportedType type .win64)
where
  bySize : Except AbiError Passing := do
    if fillsRegister (← sizeToPass type) then return .integer else return .memory

/-- How a value of a type crosses a call. -/
def classify : Convention → Ty → Except AbiError Passing
  | systemV => classifySystemV
  | win64 => classifyWin64

/-! ### System V -/

/-- What System V has left to hand out. -/
structure Supply where
  general : List Asm.Register
  vector : List Asm.Register
  /-- End of the argument area so far. -/
  stack : Nat

/-- The place of one argument, and what is left after it. -/
def Supply.take (supply : Supply) (type : Ty) (passing : Passing) :
    Except AbiError (Place × Supply) :=
  match passing, supply.general, supply.vector with
  | .integer, register :: rest, _ => .ok (.general register, { supply with general := rest })
  | .vector, _, register :: rest => .ok (.vector register none, { supply with vector := rest })
  | .memory, _, _ => do
    let offset := roundUp supply.stack (max (← alignToPass type) 8)
    let size ← sizeToPass type
    return (.stack offset, { supply with stack := offset + roundUp size 8 })
  | _, _, _ => .ok (.stack supply.stack, { supply with stack := supply.stack + 8 })

/-- The plans of the arguments, and what is left after them. -/
def planSystemV (supply : Supply) : List Ty → Except AbiError (List ArgumentPlan × Supply)
  | [] => .ok ([], supply)
  | type :: types => do
    let passing ← classifySystemV type
    let (place, next) ← supply.take type passing
    let (plans, last) ← planSystemV next types
    return (⟨passing, place, none⟩ :: plans, last)

/-! ### Win64 -/

/-- Bytes that a Win64 caller reserves for the register arguments. -/
def shadowSpace : Nat := 32

/-- The place of the argument at a position. -/
def placeWin64 (passing : Passing) (position : Nat) : Place :=
  match passing, win64.generalRegisters[position]? with
  | .vector, some register => .vector (.xmm position) (some register)
  | _, some register => .general register
  | _, none => .stack (8 * position)

/-- The number of vector registers taken, with the one of the argument at a position. -/
def countWin64 (passing : Passing) (position vectors : Nat) : Nat :=
  match passing, win64.generalRegisters[position]? with
  | .vector, some _ => vectors + 1
  | _, _ => vectors

/-- The plans of the arguments from a position on, where the caller's copies end at `copies` and
`vectors` vector registers are taken; and where the copies end and how many of the registers are
taken after them. -/
def planWin64 (position copies vectors : Nat) :
    List Ty → Except AbiError (List ArgumentPlan × Nat × Nat)
  | [] => .ok ([], copies, vectors)
  | type :: types => do
    let passing ← classifyWin64 type
    let place := placeWin64 passing position
    let vectors := countWin64 passing position vectors
    if passing = .memory then
      let offset := roundUp copies (max (← alignToPass type) 16)
      let size ← sizeToPass type
      let (plans, last) ← planWin64 (position + 1) (offset + size) vectors types
      return (⟨passing, place, some offset⟩ :: plans, last)
    else
      let (plans, last) ← planWin64 (position + 1) copies vectors types
      return (⟨passing, place, none⟩ :: plans, last)

/-! ### Plans -/

/-- How the result comes back. -/
def planResult (convention : Convention) (result : Ty) : Except AbiError (Option Passing) :=
  if result.isVoid then .ok none else (convention.classify result).map some

/-- The plan of a call that passes arguments of the given types. A result in memory takes the first
argument register for its address. -/
def plan (convention : Convention) (arguments : List Ty) (result : Ty) :
    Except AbiError CallPlan := do
  let returned ← convention.planResult result
  let hidden := if returned = some .memory then 1 else 0
  match convention with
  | systemV =>
    let supply : Supply :=
      ⟨systemV.generalRegisters.drop hidden, systemV.vectorRegisters, 0⟩
    let (plans, last) ← planSystemV supply arguments
    return ⟨plans, returned, roundUp last.stack 16, systemV.vectorCount - last.vector.length⟩
  | win64 =>
    let positions := hidden + arguments.length
    let (plans, last, vectors) ←
      planWin64 hidden (roundUp (max shadowSpace (8 * positions)) 16) 0 arguments
    return ⟨plans, returned, roundUp last 16, vectors⟩

end Convention

end SsaAmd64
