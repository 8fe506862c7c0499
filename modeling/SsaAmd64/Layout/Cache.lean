/-
**A layout session.**

Struct layouts are computed once and remembered. A session is a sequence of queries put to one
shared memory; what an inner struct added is kept even where the query that asked for it fails.

* `LayoutCache.answer`: the answer to a query, and the memory after it;
* `LayoutQuery.answer`: the answer without any memory, which it has to agree with.
-/

import SsaAmd64.Layout.Basic

namespace SsaAmd64

/-- Struct layouts computed so far. -/
structure LayoutCache where
  structs : List ((Bool × List Ty) × StructLayout)

namespace LayoutCache

def empty : LayoutCache := ⟨[]⟩

def find? (cache : LayoutCache) (packed : Bool) (fields : List Ty) : Option StructLayout :=
  (cache.structs.find? fun entry => entry.1 = (packed, fields)).map Prod.snd

def insert (cache : LayoutCache) (packed : Bool) (fields : List Ty) (layout : StructLayout) :
    LayoutCache :=
  ⟨((packed, fields), layout) :: cache.structs⟩

end LayoutCache

/-- Computations that consult and extend the memory, and may fail without losing it. -/
abbrev Remembering := ExceptT LayoutError (StateM LayoutCache)

mutual

/-- Size and alignment of a type. -/
def extentRemembered : Ty → Remembering Extent
  | .array length element => do
    let inner ← extentRemembered element
    return ⟨inner.stride * length, inner.align⟩
  | .struct packed fields => do
    let cache ← get
    match cache.find? packed fields with
    | some layout => return layout.extent
    | none =>
      if packed then throw (.packedStruct (.struct packed fields))
      let layout ← placeRemembered fields 0 1
      modify fun cache => cache.insert packed fields layout
      return layout.extent
  | type => liftExcept type.extent
where
  liftExcept {α : Type} (result : Except LayoutError α) : Remembering α :=
    ExceptT.mk (pure result)

/-- Places the fields that remain. -/
def placeRemembered : List Ty → (offset align : Nat) → Remembering StructLayout
  | [], offset, align => return ⟨roundUp offset align, align, []⟩
  | field :: fields, offset, align => do
    let extent ← extentRemembered field
    let start := roundUp offset extent.align
    let rest ← placeRemembered fields (start + extent.size) (max align extent.align)
    return { rest with offsets := start :: rest.offsets }

end

/-- Placement of the fields of a struct type. -/
def structRemembered (packed : Bool) (fields : List Ty) : Remembering StructLayout := do
  let cache ← get
  match cache.find? packed fields with
  | some layout => return layout
  | none =>
    if packed then throw (.packedStruct (.struct packed fields))
    let layout ← placeRemembered fields 0 1
    modify fun cache => cache.insert packed fields layout
    return layout

/-- What can be asked about the layout of types. -/
inductive LayoutQuery where
  | size (type : Ty)
  | align (type : Ty)
  | stride (type : Ty)
  | struct (packed : Bool) (fields : List Ty)
  | fieldOffset (packed : Bool) (fields : List Ty) (field : Nat)

/-- What is answered. -/
inductive LayoutAnswer where
  | amount (count : Nat)
  | placement (layout : StructLayout)
deriving DecidableEq

/-- The answer to a query. -/
def LayoutQuery.answer : LayoutQuery → Except LayoutError LayoutAnswer
  | size type => type.size.map .amount
  | align type => type.align.map .amount
  | stride type => type.stride.map .amount
  | struct packed fields => (structLayout packed fields).map .placement
  | fieldOffset packed fields field => (SsaAmd64.fieldOffset packed fields field).map .amount

namespace LayoutCache

/-- The computation that answers a query out of the memory. -/
def compute : LayoutQuery → Remembering LayoutAnswer
  | .size type => return .amount (← extentRemembered type).size
  | .align type => return .amount (← extentRemembered type).align
  | .stride type => return .amount (← extentRemembered type).stride
  | .struct packed fields => return .placement (← structRemembered packed fields)
  | .fieldOffset packed fields field => do
    let layout ← structRemembered packed fields
    match layout.offsets[field]? with
    | some offset => return .amount offset
    | none => throw (.unsized (.struct packed fields))

/-- The answer to a query, and the memory after it. -/
def answer (cache : LayoutCache) (query : LayoutQuery) :
    Except LayoutError LayoutAnswer × LayoutCache :=
  (compute query).run cache

/-- The answers of a session, in order. -/
def answers (cache : LayoutCache) : List LayoutQuery → List (Except LayoutError LayoutAnswer)
  | [] => []
  | query :: queries =>
    let (result, next) := cache.answer query
    result :: next.answers queries

end LayoutCache

end SsaAmd64
