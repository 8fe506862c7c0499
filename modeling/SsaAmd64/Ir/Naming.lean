/-
**Unique display names.**

Names are resolved scope by scope: the globals share one scope, and the parameters, blocks and
values of each function share another. Nameless values get numbers from 1 on, and a name that is
taken gets the next number behind it. Functions keep their names.

* `Scope.claim`: the name that a value gets, and the scope after it;
* `NameTable.of?`: the names of all values of a module, unless the look for a type has no end;
* `NameTable.of`: the same where types are known to be found;
* `Module.resolveNames`: the module with these names stored.
-/

import SsaAmd64.Ir.Edit

namespace SsaAmd64

/-- What a scope has handed out. -/
structure Scope where
  /-- For each given name, the number to try next. -/
  counts : List (String × Nat)
  /-- The names in use. -/
  used : List String

namespace Scope

def empty : Scope := ⟨[], []⟩

/-- A given name with a number behind it; the number zero is not written. -/
def numbered (name : String) (count : Nat) : String :=
  if count = 0 then name else name ++ toString count

/-- The first number to try for a given name. -/
def firstCount (scope : Scope) (name : String) : Nat :=
  (scope.counts.lookup name).getD (if name.isEmpty then 1 else 0)

/-- The least number, from the first to try on, that makes a name not in use. Among more numbers
than there are names in use, one is free. -/
def freeCount (scope : Scope) (name : String) : Nat :=
  let first := scope.firstCount name
  ((List.range' first (scope.used.length + 1)).find? fun count =>
    !scope.used.contains (numbered name count)).getD first

/-- The name that a value with a given name gets, and the scope after it. -/
def claim (scope : Scope) (name : String) : String × Scope :=
  let count := scope.freeCount name
  let resolved := numbered name count
  (resolved, ⟨(name, count + 1) :: scope.counts, resolved :: scope.used⟩)

/-- The names that values get one after the other. -/
def claimAll (m : Module) (scope : Scope) : List ValueId → List (ValueId × String)
  | [] => []
  | id :: ids =>
    let (resolved, next) := scope.claim (m.storedName id)
    (id, resolved) :: claimAll m next ids

end Scope

/-- The values that share the scope of a function, in the order in which they are named. None if the
look for the type of one has no end. -/
def Module.scopeOf? (m : Module) (function : ValueId) : Option (List ValueId) := do
  let produced ← (m.bodyOf function).filterM m.producesValue?
  return m.parametersOf function ++ m.blocksOf function ++ produced

/-- The values that share the scope of a function, where types are found. -/
def Module.scopeOf (m : Module) (function : ValueId) : List ValueId :=
  m.parametersOf function ++ m.blocksOf function ++ (m.bodyOf function).filter m.producesValue

/-- Resolved names of values. -/
structure NameTable where
  names : List (ValueId × String)

namespace NameTable

/-- The names of all values of a module that have one. None if the look for the type of an
instruction has no end. -/
def of? (m : Module) : Option NameTable := do
  let inner ← m.functions.mapM fun function => do
    let scope ← m.scopeOf? function
    return (function, m.storedName function) :: Scope.claimAll m .empty scope
  return ⟨Scope.claimAll m .empty m.globals ++ inner.flatten⟩

/-- The names of all values of a module that have one, where types are found. -/
def of (m : Module) : NameTable :=
  ⟨Scope.claimAll m .empty m.globals ++ m.functions.flatMap fun function =>
    (function, m.storedName function) :: Scope.claimAll m .empty (m.scopeOf function)⟩

def get? (table : NameTable) (id : ValueId) : Option String :=
  table.names.lookup id

end NameTable

/-- Stores the resolved names. -/
def Module.resolveNames (m : Module) : Module :=
  (NameTable.of m).names.foldl
    (fun m (id, name) => m.modify id fun entry => { entry with name }) m

end SsaAmd64
