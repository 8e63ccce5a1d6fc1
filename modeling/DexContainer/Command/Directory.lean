import DexContainer.Command.Run

/-! The command in a directory of files without subdirectories. A path leads to a file by its name,
behind any number of steps to the directory itself; every other path leads nowhere, and nothing
can be written there. -/

namespace DexContainer

/-- The files of a directory by name. -/
structure Directory where
  files : List (String × Image) := []

namespace Directory

/-- The name that a path stands for; a path that starts with a slash leads elsewhere. -/
def nameOf? (path : String) : Option String :=
  match (path.toList.splitOn '/').map String.ofList with
  | "" :: _ => none
  | steps =>
    match steps.dropWhile fun step => step.isEmpty || step == "." with
    | [name] => if name == ".." then none else some name
    | _ => none

/-- The file at a path. -/
def read (d : Directory) (path : String) : Except Fault Image :=
  match (nameOf? path).bind fun name => d.files.lookup name with
  | some image => pure image
  | none => throw .storage

/-- Writes a file, in place of one that has the name already. -/
def write (d : Directory) (path : String) (image : Image) : Except Fault Directory :=
  match nameOf? path with
  | some name => pure ⟨(name, image) :: d.files.filter (·.1 ≠ name)⟩
  | none => throw .storage

/-- Runs a command. -/
def run (given : Command.Setting) (d : Directory) (c : Command) : Outcome × Directory :=
  match Command.plan given d.read c with
  | .finish o => (o, d)
  | .write path image =>
    match d.write path image with
    | .ok after => (Plan.outcome true (.write path image), after)
    | .error _ => (Plan.outcome false (.write path image), d)

/-- Runs the command that a list of arguments gives. -/
def runArguments (given : Command.Setting) (d : Directory) (arguments : List String) :
    Outcome × Directory :=
  match Command.ofArguments? arguments with
  | some c => d.run given c
  | none => (Command.misuse, d)

end Directory

end DexContainer
