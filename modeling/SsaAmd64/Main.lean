/-
**The program.**

The command line in the surroundings of the operating system.
-/

import SsaAmd64.CommandLine.Run

namespace SsaAmd64

/-- Whether an action ends without an error. -/
def succeeds (action : IO Unit) : IO Bool := do
  match ← action.toBaseIO with
  | .ok () => return true
  | .error _ => return false

/-- Makes a directory, and tells whether it is there now. -/
def makeSystemDirectory (path : String) : IO Bool := do
  match ← (IO.FS.createDir path).toBaseIO with
  | .ok () => return true
  | .error (.alreadyExists ..) => succeeds (IO.FS.createDirAll path)
  | .error _ => return false

/-- Streams and files of the operating system. -/
def systemSurroundings : Surroundings IO where
  print text := do
    let output ← IO.getStdout
    output.putStr text
  complain text := do
    let output ← IO.getStderr
    output.putStr text
  read path := do
    match ← (IO.FS.readFile path).toBaseIO with
    | .ok text => return some text
    | .error _ => return none
  makeDirectory := makeSystemDirectory
  write path content := succeeds (IO.FS.writeFile path content)

end SsaAmd64

def main (arguments : List String) : IO UInt32 :=
  SsaAmd64.CommandLine.run SsaAmd64.systemSurroundings arguments
