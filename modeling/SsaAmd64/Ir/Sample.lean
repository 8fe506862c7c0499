/-
**Sample modules.**

Small programs that validation accepts: a maximum, two loops, and a program that prints Fibonacci
numbers.
-/

import SsaAmd64.Ir.Cursor

namespace SsaAmd64

namespace Sample

/-- A module under construction and the cursor that builds it. -/
structure Draft where
  subject : Module
  cursor : Cursor

/-- Steps of construction. -/
abbrev Build := StateT Draft (Except EditError)

/-- The module that steps build from an empty one. -/
def build (name : String) (steps : Build Unit) : Module :=
  match steps.run ⟨.empty name, .unset⟩ with
  | .ok (_, draft) => draft.subject
  | .error _ => .empty name

/-- A change that gives a new value. -/
def adding (change : Module → Except EditError (ValueId × Module)) : Build ValueId := do
  let draft ← get
  let (id, subject) ← liftM (change draft.subject)
  set { draft with subject }
  return id

/-- A change that gives no new value. -/
def changing (change : Module → Except EditError Module) : Build Unit := do
  let draft ← get
  let subject ← liftM (change draft.subject)
  set { draft with subject }

def defineFunction (parameters : List Ty) (result : Ty) (name : String) (variadic : Bool) :
    Build ValueId :=
  adding fun m => m.addFunction ⟨parameters, result, variadic⟩ name

/-- The parameters of a function. -/
def parametersOf (function : ValueId) : Build (List ValueId) :=
  return (← get).subject.parametersOf function

def nameValue (id : ValueId) (name : String) : Build Unit :=
  changing fun m => .ok (m.rename id name)

def appendBlock (function : ValueId) (name : String) : Build ValueId :=
  adding fun m => m.addBlock function .finish name

def literal (width value : Nat) : Build ValueId :=
  adding fun m => .ok (m.addLiteral (.ofNat width value))

def standAt (point : InsertionPoint) : Build Unit :=
  modify fun draft => { draft with cursor := ⟨some point⟩ }

/-- An instruction at the cursor. -/
def insert (form : Form) (name : String) : Build ValueId := do
  let draft ← get
  let insertion ← liftM (draft.cursor.insert draft.subject form name)
  set (⟨insertion.outcome, insertion.cursor⟩ : Draft)
  return insertion.instruction

/-- An instruction at the cursor whose result is not needed. -/
def emit (form : Form) : Build Unit := do
  let _ ← insert form ""

def incoming (phi value block : ValueId) : Build Unit :=
  changing fun m => m.addIncoming phi value block

/-- The greater of two integers, with one return for each. -/
def max2 : Module := build "max2" do
  let function ← defineFunction [.int 32, .int 32] (.int 32) "max2" false
  let [a, b] ← parametersOf function | return
  nameValue a "a"
  nameValue b "b"
  let entry ← appendBlock function "entry"
  let returnA ← appendBlock function "ret_a"
  let returnB ← appendBlock function "ret_b"
  standAt (.finish entry)
  let greater ← insert (.compare .sge a b) "cmp"
  emit (.condbr greater returnA returnB)
  standAt (.finish returnA)
  emit (.ret (some a))
  standAt (.finish returnB)
  emit (.ret (some b))

/-- The sum of the natural numbers below one. -/
def sumLoop : Module := build "sum" do
  let function ← defineFunction [.int 64] (.int 64) "sum_to" false
  let [n] ← parametersOf function | return
  nameValue n "n"
  let entry ← appendBlock function "entry"
  let head ← appendBlock function "loop"
  let body ← appendBlock function "body"
  let exit ← appendBlock function "exit"
  standAt (.finish entry)
  emit (.br head)
  standAt (.finish head)
  let i ← insert (.phi (.int 64)) "i"
  let sum ← insert (.phi (.int 64)) "acc"
  let more ← insert (.compare .slt i n) "more"
  emit (.condbr more body exit)
  standAt (.finish body)
  let nextSum ← insert (.binary .add sum i) "next_acc"
  let one ← literal 64 1
  let nextI ← insert (.binary .add i one) "next_i"
  emit (.br head)
  incoming i (← literal 64 0) entry
  incoming i nextI body
  incoming sum (← literal 64 0) entry
  incoming sum nextSum body
  standAt (.finish exit)
  emit (.ret (some sum))

/-- A Fibonacci number, by a loop in which one phi takes the old value of another. -/
def fib : Module := build "fib" do
  let function ← defineFunction [.int 64] (.int 64) "fib" false
  let [n] ← parametersOf function | return
  nameValue n "n"
  let entry ← appendBlock function "entry"
  let head ← appendBlock function "loop"
  let exit ← appendBlock function "exit"
  standAt (.finish entry)
  emit (.br head)
  standAt (.finish head)
  let a ← insert (.phi (.int 64)) "a"
  let b ← insert (.phi (.int 64)) "b"
  let i ← insert (.phi (.int 64)) "i"
  let sum ← insert (.binary .add a b) "sum"
  let one ← literal 64 1
  let nextI ← insert (.binary .add i one) "next_i"
  let more ← insert (.compare .slt i n) "more"
  emit (.condbr more head exit)
  for (phi, start, next) in [(a, 0, b), (b, 1, sum), (i, 0, nextI)] do
    incoming phi (← literal 64 start) entry
    incoming phi next head
  standAt (.finish exit)
  emit (.ret (some a))

/-- A program that prints as many Fibonacci numbers as its first argument says. -/
def demo : Module := build "mod" do
  let text : Ty := .pointer (.int 8)
  let line ← adding fun m => m.addText "%2d: %lld\n" true "str"
  let usage ← adding fun m => m.addText "Please supply number as argument\n" true "str"
  let printf ← defineFunction [text] .void "printf" true
  let atol ← defineFunction [text] (.int 64) "atol" false
  let main ← defineFunction [.int 32, .pointer text] (.int 32) "main" false
  let [argc, argv] ← parametersOf main | return
  let entry ← appendBlock main "entry"
  let getMax ← appendBlock main "getMax"
  let fail ← appendBlock main "fail"
  standAt (.start entry)
  let two ← literal 32 2
  let enough ← insert (.compare .sge argc two) "cmp"
  emit (.condbr enough getMax fail)
  standAt (.start fail)
  let message ← insert (.convert .bitcast usage text) ""
  emit (.call printf [message])
  emit (.ret (some (← literal 32 1)))
  standAt (.start getMax)
  let index ← literal 32 1
  let slot ← insert (.gep argv [index]) ""
  let second ← insert (.load slot) ""
  let parsed ← insert (.call atol [second]) "max"
  let location ← insert (.alloc (.int 64)) ""
  emit (.store location parsed)
  let max ← insert (.load location) ""
  let mid ← appendBlock main "mid"
  let exit ← appendBlock main "exit"
  emit (.br mid)
  standAt (.start mid)
  let counter ← insert (.phi (.int 64)) "phi"
  incoming counter (← literal 64 0) getMax
  let a ← insert (.phi (.int 64)) "aphi"
  let b ← insert (.phi (.int 64)) "bphi"
  incoming b (← literal 64 1) getMax
  incoming a (← literal 64 0) getMax
  incoming a b mid
  let one ← literal 64 1
  let next ← insert (.binary .add counter one) "add"
  let sum ← insert (.binary .add a b) "addfib"
  incoming b sum mid
  let format ← insert (.convert .bitcast line text) ""
  emit (.call printf [format, next, a])
  incoming counter next mid
  let done ← insert (.compare .sge next max) "cmp"
  emit (.condbr done exit mid)
  standAt (.start exit)
  let zero ← literal 8 0
  let status ← insert (.convert .sext zero (.int 32)) ""
  emit (.ret (some status))

end Sample

end SsaAmd64
