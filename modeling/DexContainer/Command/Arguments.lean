/-! The arguments of the command: a word that names what to do, paths, switches and one option
with a value. Switches and the option may stand anywhere behind the first word, each at most once,
and behind two dashes every argument is a path. -/

namespace DexContainer

/-- What the command is asked to do. -/
inductive Command
  /-- Prints the header and the map directory, as a table or as structured text. -/
  | info (file : String) (structured : Bool)
  /-- Reads a file, lays it out again and writes it. -/
  | layOut (input output : String) (inPlace canonical normalizeRegisters : Bool)
      (config : Option String)
  /-- Checks the stored checksum and signature. -/
  | verify (file : String)
deriving DecidableEq, Repr

namespace Command

/-- Arguments sorted by what they are. -/
structure Arguments where
  paths : List String := []
  switches : List String := []
  config : Option String := none

/-- The argument has the form of a switch: a dash and something behind it. -/
def isSwitch (argument : String) : Bool :=
  match argument.toList with
  | '-' :: _ :: _ => true
  | _ => false

/-- What follows a mark at the front of an argument. -/
def behind? (mark argument : String) : Option String :=
  if mark.toList.isPrefixOf argument.toList then
    some (String.ofList (argument.toList.drop mark.length))
  else none

/-- Adds a path, which is not empty. -/
def Arguments.addPath (a : Arguments) (path : String) : Option Arguments :=
  if path.isEmpty then none else some { a with paths := a.paths ++ [path] }

/-- Adds a switch that may occur and has not occurred. -/
def Arguments.addSwitch (allowed : List String) (a : Arguments) (s : String) : Option Arguments :=
  if allowed.contains s && !a.switches.contains s then
    some { a with switches := a.switches ++ [s] }
  else none

/-- Sets the option, which has not been set and is not empty. -/
def Arguments.setConfig (a : Arguments) (path : String) : Option Arguments :=
  if a.config.isSome || path.isEmpty then none else some { a with config := some path }

/-- Sorts arguments, given the switches that may occur and whether the option may. -/
def sort (allowed : List String) (takesConfig : Bool) :
    Arguments → List String → Option Arguments
  | a, [] => some a
  | a, "--" :: rest => rest.foldlM Arguments.addPath a
  | a, argument :: rest =>
    if takesConfig && argument == "--config" then
      match rest with
      | [] => none
      | path :: rest =>
        if isSwitch path then none
        else do sort allowed takesConfig (← a.setConfig path) rest
    else do
      match if takesConfig then behind? "--config=" argument else none with
      | some path => sort allowed takesConfig (← a.setConfig path) rest
      | none =>
        if isSwitch argument then
          sort allowed takesConfig (← a.addSwitch allowed argument) rest
        else sort allowed takesConfig (← a.addPath argument) rest

/-- The switches of a new layout. -/
def layOutSwitches : List String := ["--in-place", "--canonical", "--normalize-registers"]

/-- The command that a list of arguments gives; none when the arguments are wrong. -/
def ofArguments? : List String → Option Command
  | "info" :: rest => do
    let a ← sort ["--json"] false {} rest
    match a.paths with
    | [file] => some (.info file (a.switches.contains "--json"))
    | _ => none
  | "rewrite" :: rest => do
    let a ← sort layOutSwitches true {} rest
    match a.paths with
    | [input, output] =>
      some (.layOut input output (a.switches.contains "--in-place")
        (a.switches.contains "--canonical") (a.switches.contains "--normalize-registers") a.config)
    | _ => none
  | "verify" :: rest => do
    let a ← sort [] false {} rest
    match a.paths with
    | [file] => some (.verify file)
    | _ => none
  | _ => none

end Command

end DexContainer
