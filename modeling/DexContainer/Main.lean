import DexContainer.Command.Run

/-! The command line: inspects, lays out again and verifies Dalvik executable files. -/

open DexContainer

/-- Reads a file. -/
def readFile (path : String) : IO (Except Fault Image) := do
  try return .ok (← IO.FS.readBinFile path).data
  catch _ => return .error .storage

/-- Writes a file, and tells whether that succeeded. -/
def writeFile (path : String) (image : Image) : IO Bool := do
  try
    IO.FS.writeBinFile path (ByteArray.mk image)
    return true
  catch _ => return false

/-- Carries out what a command has planned. -/
def carryOut (p : Plan) : IO Outcome := do
  match p with
  | .finish _ => return p.outcome true
  | .write path image => return p.outcome (← writeFile path image)

/-- Tells what failed and why. -/
def printErrors : List String → IO Unit
  | [] => pure ()
  | outer :: causes => do
    IO.eprintln ("Error: " ++ outer)
    if !causes.isEmpty then
      IO.eprintln "\nCaused by:"
      causes.forM fun cause => IO.eprintln ("    " ++ cause)

/-- How the command is used. -/
def usage : String :=
  "Usage: dexmap info FILE [--json]\n" ++
  "       dexmap rewrite INPUT OUTPUT [--in-place] [--canonical] [--normalize-registers]\n" ++
  "              [--config FILE]\n" ++
  "       dexmap verify FILE\n"

def main (arguments : List String) : IO UInt32 := do
  match Command.ofArguments? arguments with
  | none =>
    IO.eprint usage
    return 2
  | some c =>
    let contents ← c.reads.mapM fun path => return (path, ← readFile path)
    let files (path : String) := (contents.lookup path).getD (.error .storage)
    let outcome ← carryOut (c.plan {} files)
    IO.print outcome.printed
    printErrors outcome.errors
    return UInt32.ofNat outcome.exitCode
