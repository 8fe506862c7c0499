/-
**Command lines.**

A command line is options, a command, and the options of the command. Arguments are read from the
left. The first that asks for help or for the version ends the reading, and so does the first that
is wrong.

* `CommandLine.readOptions`: the options at the front of a list of arguments, and what follows them;
* `Command.ofArguments`: what a command line asks for.

A switch or setting is given at most once. The value of a setting stands behind an equals sign, or
directly behind its letter, or is the next argument; as the next argument it starts with no dash,
unless it is a dash alone. One argument may hold the letters of several switches.
-/

import SsaAmd64.Abi.Platform

namespace SsaAmd64

/-- Languages in which diagrams are written. -/
inductive DiagramFormat where
  | dot
  | json
deriving DecidableEq

namespace DiagramFormat

def all : List DiagramFormat := [dot, json]

/-- The name of a format, which is also the extension of its files. -/
def name : DiagramFormat → String
  | dot => "dot"
  | json => "json"

def ofName? (name : String) : Option DiagramFormat :=
  all.find? fun format => format.name == name

end DiagramFormat

/-- What is to be done with the sample program. -/
structure DemoRequest where
  printText : Bool
  printValues : Bool
  noComments : Bool
  /-- The directory that diagrams are written into. -/
  diagrams : Option String
  format : DiagramFormat
  /-- The file that settings are read from. -/
  config : Option String
  platform : Option Platform
  /-- The file that the assembly is written to. -/
  output : Option String
deriving DecidableEq

inductive Command where
  /-- Writes out the sample program in the forms that are asked for. -/
  | demo (request : DemoRequest)
  /-- Validates the sample program. -/
  | check
deriving DecidableEq

namespace CommandLine

/-- What ends a reading without a command. -/
inductive Ending where
  | help
  | version
  | rejected
deriving DecidableEq

abbrev Reading := Except Ending

/-! ### What can be given -/

inductive Switch where
  | printText
  | printValues
  | noComments
  /-- Accepted, but there is nothing to be verbose about. -/
  | verbose
deriving DecidableEq

inductive Setting where
  | diagrams
  | format
  | config
  | platform
  | output
deriving DecidableEq

/-- A path is not empty, and a name is one of the known ones. -/
def Setting.accepts (value : String) : Setting → Bool
  | format => (DiagramFormat.ofName? value).isSome
  | platform => (Platform.ofName? value).isSome
  | diagrams | config | output => !value.isEmpty

/-- What has been given so far. -/
structure Given where
  switches : List Switch
  values : List (Setting × String)

namespace Given

def empty : Given := ⟨[], []⟩

def has (given : Given) (switch : Switch) : Bool :=
  given.switches.contains switch

def value? (given : Given) (setting : Setting) : Option String :=
  given.values.lookup setting

/-- Takes in a switch, which must be new. -/
def turnOn (given : Given) (switch : Switch) : Reading Given :=
  if given.has switch then .error .rejected
  else .ok { given with switches := switch :: given.switches }

/-- Takes in the value of a setting, which must be new. -/
def assign (given : Given) (setting : Setting) (value : String) : Reading Given :=
  if (given.value? setting).isSome || !setting.accepts value then .error .rejected
  else .ok { given with values := (setting, value) :: given.values }

end Given

/-! ### What options mean -/

/-- Where options stand: in front of the command, or behind one of the commands. -/
inductive Level where
  | front
  | demo
  | check
deriving DecidableEq

/-- What an option stands for. -/
inductive Meaning where
  | ending (ending : Ending)
  | switch (switch : Switch)
  | setting (setting : Setting)

/-- The meaning of a name behind two dashes. -/
def Level.name? : Level → String → Option Meaning
  | _, "help" => some (.ending .help)
  | _, "verbose" => some (.switch .verbose)
  | front, "version" => some (.ending .version)
  | demo, "print-ir" => some (.switch .printText)
  | demo, "print-values" => some (.switch .printValues)
  | demo, "no-comments" => some (.switch .noComments)
  | demo, "graphs" => some (.setting .diagrams)
  | demo, "graph-format" => some (.setting .format)
  | demo, "config" => some (.setting .config)
  | demo, "platform" => some (.setting .platform)
  | demo, "output" => some (.setting .output)
  | _, _ => none

/-- The meaning of a letter behind one dash. -/
def Level.letter? : Level → Char → Option Meaning
  | _, 'h' => some (.ending .help)
  | _, 'v' => some (.switch .verbose)
  | front, 'V' => some (.ending .version)
  | demo, 'o' => some (.setting .output)
  | _, _ => none

/-! ### Reading -/

/-- The shapes of an argument. -/
inductive Shape where
  | plain
  /-- Two dashes alone: no options follow. -/
  | separator
  /-- A name behind two dashes, with what stands behind an equals sign. -/
  | name (name : String) (attached : Option String)
  /-- Letters behind one dash. -/
  | letters (letters : List Char)

/-- The shape of an argument. -/
def Shape.of (argument : String) : Shape :=
  match argument.toList with
  | ['-', '-'] => separator
  | '-' :: '-' :: text =>
    let attached := match text.dropWhile (· ≠ '=') with
      | '=' :: value => some (String.ofList value)
      | _ => none
    name (String.ofList (text.takeWhile (· ≠ '='))) attached
  | '-' :: letter :: more => letters (letter :: more)
  | _ => plain

/-- Whether an argument can be the value of the setting in front of it. -/
def isValue (argument : String) : Bool :=
  match Shape.of argument with
  | .plain => true
  | _ => false

/-- Takes in an option given by name. A setting without an attached value waits for one. -/
def readName (level : Level) (given : Given) (name : String) (attached : Option String) :
    Reading (Given × Option Setting) :=
  match level.name? name, attached with
  | some (.ending ending), none => .error ending
  | some (.switch switch), none => do return (← given.turnOn switch, none)
  | some (.setting setting), none => .ok (given, some setting)
  | some (.setting setting), some value => do return (← given.assign setting value, none)
  | _, _ => .error .rejected

/-- Takes in options given by letters. What follows the letter of a setting is its value, behind an
equals sign or not. -/
def readLetters (level : Level) (given : Given) : List Char → Reading (Given × Option Setting)
  | [] => .ok (given, none)
  | letter :: more =>
    match level.letter? letter with
    | some (.ending ending) => .error ending
    | some (.switch switch) => do readLetters level (← given.turnOn switch) more
    | some (.setting setting) =>
      match more with
      | [] => .ok (given, some setting)
      | '=' :: value => do return (← given.assign setting (String.ofList value), none)
      | value => do return (← given.assign setting (String.ofList value), none)
    | none => .error .rejected

/-- Reads options up to the first plain argument, where `waiting` is a setting that waits for its
value. -/
def readOptions (level : Level) (given : Given) (waiting : Option Setting) :
    List String → Reading (Given × List String)
  | [] => if waiting.isSome then .error .rejected else .ok (given, [])
  | argument :: rest =>
    match waiting with
    | some setting =>
      if isValue argument then do readOptions level (← given.assign setting argument) none rest
      else .error .rejected
    | none =>
      match Shape.of argument with
      | .plain => .ok (given, argument :: rest)
      | .separator => if rest.isEmpty then .ok (given, []) else .error .rejected
      | .name name attached => do
        let (next, due) ← readName level given name attached
        readOptions level next due rest
      | .letters letters => do
        let (next, due) ← readLetters level given letters
        readOptions level next due rest

/-- Reads options with nothing behind them. -/
def readAllOptions (level : Level) (arguments : List String) : Reading Given := do
  let (given, rest) ← readOptions level .empty none arguments
  if rest.isEmpty then return given else throw .rejected

end CommandLine

open CommandLine

/-- The request that options make. -/
def DemoRequest.of (given : Given) : DemoRequest where
  printText := given.has .printText
  printValues := given.has .printValues
  noComments := given.has .noComments
  diagrams := given.value? .diagrams
  format := ((given.value? .format).bind DiagramFormat.ofName?).getD .dot
  config := given.value? .config
  platform := (given.value? .platform).bind Platform.ofName?
  output := given.value? .output

/-- What a command line asks for. Help can be asked for about a command. -/
def Command.ofArguments (arguments : List String) : Reading Command := do
  let (_, rest) ← readOptions .front .empty none arguments
  match rest with
  | "demo" :: options => return .demo (.of (← readAllOptions .demo options))
  | "check" :: options =>
    let _ ← readAllOptions .check options
    return .check
  | ["help"] | ["help", "demo"] | ["help", "check"] | ["help", "help"] => throw .help
  | _ => throw .rejected

end SsaAmd64
