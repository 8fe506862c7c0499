/-
**A workspace in memory.**

Surroundings in which a command line runs without touching a disk: a file tree with a working
directory in it, and what has been printed. Around the working directory the tree is bare; it holds
the directories above and a null device.

* `Workspace.surroundings`: the workspace as surroundings of a command;
* `Workspace.run`: a command line run in a workspace;
* `Workspace.files`: the files in the working directory.
-/

import SsaAmd64.CommandLine.Run

namespace SsaAmd64

/-- The names that lead from a directory to a place below it. -/
abbrev Location := List String

/-! ### File trees -/

/-- What a name in a directory stands for. -/
inductive Node where
  | file (content : String)
  /-- A file that stays empty whatever is written. -/
  | null
  | directory (entries : List (String × Node))

namespace Node

/-- What a name stands for in a directory. -/
def child? (tree : Node) (name : String) : Option Node :=
  match tree with
  | directory entries => entries.lookup name
  | _ => none

def isDirectory : Node → Bool
  | directory _ => true
  | _ => false

/-- The directory in which a name stands for a node. -/
def put (tree : Node) (name : String) (node : Node) : Node :=
  match tree with
  | directory entries => directory ((name, node) :: entries.filter fun entry => entry.1 ≠ name)
  | _ => tree

/-- The tree in which a name of the directory at a location stands for a node. -/
def putAt (tree : Node) (location : Location) (name : String) (node : Node) : Node :=
  match location with
  | [] => tree.put name node
  | step :: rest =>
    match tree.child? step with
    | some inner => tree.put step (inner.putAt rest name node)
    | none => tree

mutual

/-- The files of a tree and their locations. -/
def files : Node → List (Location × String)
  | file content => [([], content)]
  | null => []
  | directory entries => filesOf entries

/-- The files of the entries of a directory. -/
def filesOf : List (String × Node) → List (Location × String)
  | [] => []
  | (name, node) :: entries =>
    (files node).map (fun (location, content) => (name :: location, content)) ++ filesOf entries

end

end Node

/-! ### Workspaces -/

structure Workspace where
  root : Node
  printed : String

namespace Workspace

/-- The location of the working directory. -/
def home : Location := ["tmp", "workspace"]

/-- A workspace with some files in its working directory, by name. -/
def ofFiles (files : List (String × String)) : Workspace :=
  let directory := Node.directory (files.map fun (name, content) => (name, .file content))
  ⟨.directory [("dev", .directory [("null", .null)]),
    ("tmp", .directory [("workspace", directory)])], ""⟩

/-- The directories that a walk from the root has gone into, the last first. -/
abbrev Trail := List (String × Node)

def Trail.location (trail : Trail) : Location :=
  (trail.map Prod.fst).reverse

/-- The directory that a walk has come to. -/
def here (workspace : Workspace) (trail : Trail) : Node :=
  (trail.head?.map Prod.snd).getD workspace.root

/-- Goes on along a part of a path, which has to lead to a directory. Above the root is the root. -/
def enter (workspace : Workspace) (trail : Trail) (part : String) : Option Trail :=
  if Path.isIdle part then some trail
  else if part = ".." then some trail.tail
  else match (workspace.here trail).child? part with
    | some node => if node.isDirectory then some ((part, node) :: trail) else none
    | none => none

/-- Walks along the parts of a path from where the path starts. -/
def walk (workspace : Workspace) (absolute : Bool) (parts : List String) : Option Trail :=
  ((if absolute then [] else home) ++ parts).foldlM workspace.enter []

/-- The directory that parts of a path lead to but for the last, which has to be a name. -/
def locate? (workspace : Workspace) (absolute : Bool) (parts : List String) :
    Option (Trail × String) := do
  let name ← parts.getLast?
  let trail ← workspace.walk absolute parts.dropLast
  if Path.isIdle name || name = ".." then none else some (trail, name)

/-- The workspace in which a name of the directory that a walk has come to stands for a node. -/
def put (workspace : Workspace) (trail : Trail) (name : String) (node : Node) : Workspace :=
  { workspace with root := workspace.root.putAt trail.location name node }

/-! ### Effects -/

def read (workspace : Workspace) (path : String) : Option String := do
  let (trail, name) ← workspace.locate? (Path.isAbsolute path) (← Path.parts? path)
  match (workspace.here trail).child? name with
  | some (.file content) => some content
  | some .null => some ""
  | some (.directory _) | none => none

/-- The workspace with a file in place of what was there before, which may be no directory. -/
def write (workspace : Workspace) (path content : String) : Option Workspace := do
  let (trail, name) ← workspace.locate? (Path.isAbsolute path) (← Path.parts? path)
  match (workspace.here trail).child? name with
  | some (.directory _) => none
  | some .null => some workspace
  | some (.file _) | none => some (workspace.put trail name (.file content))

/-- The workspace with a directory that is there already, or made in one that is there. Slashes
behind the name make no difference. -/
def makeDirectory (workspace : Workspace) (path : String) : Option Workspace := do
  let absolute := Path.isAbsolute path
  let parts := ((← Path.parts? path).reverse.dropWhile fun part => part = "").reverse
  if (workspace.walk absolute parts).isSome then return workspace
  let (trail, name) ← workspace.locate? absolute parts
  match (workspace.here trail).child? name with
  | some _ => none
  | none => some (workspace.put trail name (.directory []))

/-- Takes over a change, if there is one, and tells whether there is. -/
def attempt (change : Workspace → Option Workspace) : StateM Workspace Bool :=
  fun workspace =>
    match change workspace with
    | some changed => (true, changed)
    | none => (false, workspace)

/-- The workspace as surroundings of a command. Complaints are not kept. -/
def surroundings : Surroundings (StateM Workspace) where
  print text := modify fun workspace => { workspace with printed := workspace.printed ++ text }
  complain _ := pure ()
  read path := return (← get).read path
  makeDirectory path := attempt fun workspace => workspace.makeDirectory path
  write path content := attempt fun workspace => workspace.write path content

/-- The exit code of a command line, and the workspace after it. -/
def run (workspace : Workspace) (arguments : List String) : UInt32 × Workspace :=
  (CommandLine.run surroundings arguments).run workspace

/-- The files in and below the working directory. -/
def files (workspace : Workspace) : List (Location × String) :=
  match workspace.walk false [] with
  | some trail => (workspace.here trail).files
  | none => []

end Workspace

end SsaAmd64
