/-
**Paths.**

A path is text, whose parts stand between slashes. A path that starts with a slash leads from the
root of the file tree, and any other from the working directory. Empty parts and single dots lead
nowhere, and two dots lead one directory up.

* `Path.join`: the path of a name in a directory;
* `Path.steps`: the directories that have to be there for a directory to be there;
* `Path.parts?`: the parts of a path that is within the limits of a file system.
-/

namespace SsaAmd64

namespace Path

def separator : String := "/"

def isAbsolute (path : String) : Bool :=
  path.startsWith separator

/-- The path of a name in a directory. -/
def join (directory name : String) : String :=
  if directory.endsWith separator then directory ++ name else directory ++ separator ++ name

/-- Whether a part of a path leads nowhere. -/
def isIdle (part : String) : Bool :=
  part = "" || part = "."

/-- The paths of the directories around the one that a path names, from the outermost on, and then
the path itself as it stands. -/
def steps (path : String) : List String :=
  let parts := (path.splitOn separator).filter fun part => !isIdle part
  let start := if isAbsolute path then separator else ""
  (List.range' 1 (parts.length - 1)).map
    (fun count => start ++ separator.intercalate (parts.take count)) ++ [path]

/-! ### Limits -/

/-- The greatest number of bytes in a path. -/
def maxBytes : Nat := 4095

/-- The greatest number of bytes in a part of a path. -/
def maxPartBytes : Nat := 255

/-- The parts of a path, if it and they are not too long. -/
def parts? (path : String) : Option (List String) :=
  let parts := path.splitOn separator
  if path.utf8ByteSize ≤ maxBytes && parts.all (fun part => part.utf8ByteSize ≤ maxPartBytes) then
    some parts
  else none

end Path

end SsaAmd64
