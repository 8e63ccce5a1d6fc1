import DexContainer.Command.Arguments
import DexContainer.Command.Report
import DexContainer.Container.Reading
import DexContainer.Container.Writing

/-! What the command does. From the files that it reads, a command gives what it prints, or a file
to be written; whether writing succeeds is found out later. A failure is told in one line and, if
an image is the cause, a second one. -/

namespace DexContainer

/-- What a run of the command comes to. -/
structure Outcome where
  exitCode : Nat := 0
  printed : String := ""
  /-- What failed, and its causes. -/
  errors : List String := []

/-- What is left to do when a command has read its files. -/
inductive Plan
  | finish (outcome : Outcome)
  | write (path : String) (image : Image)

namespace Command

/-- Gives a file by its path. -/
abbrev Files := String → Except Fault Image

/-- What a run takes as given: which options a text means, and in which order the table of a map
gives back its rows. -/
structure Setting where
  optionsOf : String → Except Fault Options := Options.ofText
  rows : RowOrder := .stored

/-- A wrong use of the command. -/
def misuse : Outcome := { exitCode := 2 }

/-- What is told of the causes of a failure: of a file or a configuration that cannot be used the
texts are not ours to give. -/
def causes : Fault → List String
  | .storage | .configuration => []
  | fault => [fault.message]

/-- A failure with its cause. -/
def failure (what path : String) (cause : Fault) : Outcome where
  exitCode := 1
  errors := ("failed to " ++ what ++ " " ++ path) :: causes cause

/-- A failure that no file accounts for. -/
def breakdown (cause : Violation) : Outcome := { exitCode := 101, errors := [cause.message] }

/-- The options in a file. -/
def loadOptions (given : Setting) (files : Files) (path : String) : Except Fault Options := do
  match String.fromUTF8? (ByteArray.mk (← files path)) with
  | some text => given.optionsOf text
  | none => throw .storage

/-- The container in a file. -/
def openContainer (given : Setting) (files : Files) (path : String) (o : Options) :
    Except Fault Container := do
  Container.ofImage given.rows (← files path) o

/-- Prints a report. -/
def reportOn (given : Setting) (files : Files) (file : String) (structured : Bool) : Outcome :=
  match openContainer given files file {} with
  | .error e => failure "read" file e
  | .ok c =>
    { printed := if structured then Report.structured c else Report.table file c }

/-- The options of a new layout: those of the configuration, changed by the switches. -/
def mergedOptions (o : Options) (inPlace canonical normalizeRegisters : Bool) : Options :=
  { o with
    inPlace := o.inPlace || inPlace
    sortAllItems := o.sortAllItems || canonical
    preserveSignedRegisters := o.preserveSignedRegisters && !normalizeRegisters }

/-- The options of a configuration, if there is one. -/
def configured (given : Setting) (files : Files) : Option String → Except Fault Options
  | none => pure {}
  | some path => loadOptions given files path

/-- Reads a file with given options and lays it out again. -/
def relayOut (given : Setting) (files : Files) (input output : String) (o : Options) : Plan :=
  match openContainer given files input o with
  | .error e => .finish (failure "read" input e)
  | .ok c =>
    match c.toImage with
    | .error (.violation v) => .finish (breakdown v)
    | .error (.fault e) => .finish (failure "write" output e)
    | .ok (_, image) => .write output image

/-- Reads a file and lays it out again. -/
def layOutFile (given : Setting) (files : Files) (input output : String)
    (inPlace canonical normalizeRegisters : Bool) (config : Option String) : Plan :=
  match configured given files config with
  | .error e => .finish (failure "load options from" (config.getD "") e)
  | .ok o =>
    relayOut given files input output (mergedOptions o inPlace canonical normalizeRegisters)

/-- Checks the integrity of a file. -/
def verifyFile (files : Files) (file : String) : Outcome :=
  match files file with
  | .error e => failure "read" file e
  | .ok image =>
    match Stamp.verify image with
    | .error e => { exitCode := 1, errors := [file ++ ": " ++ e.message] }
    | .ok () => { printed := file ++ ": ok\n" }

/-- What a command comes to, given the files. -/
def plan (given : Setting) (files : Files) : Command → Plan
  | .info file structured => .finish (reportOn given files file structured)
  | .layOut input output inPlace canonical normalizeRegisters config =>
    layOutFile given files input output inPlace canonical normalizeRegisters config
  | .verify file => .finish (verifyFile files file)

/-- The files that a command reads. -/
def reads : Command → List String
  | .info file _ | .verify file => [file]
  | .layOut input _ _ _ _ config => config.toList ++ [input]

end Command

/-- The outcome after the file was written, or could not be. -/
def Plan.outcome (written : Bool) : Plan → Outcome
  | .finish o => o
  | .write path _ => if written then {} else Command.failure "write" path .storage

end DexContainer
