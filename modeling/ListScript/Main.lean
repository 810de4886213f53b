import ListScript.CommandLine

/-!
# The program

Reads the arguments and the input, lets `Invocation.perform` decide, and writes what it says.
-/

namespace ListScript

/-- How the command is used. -/
def usage : String := "usage: [--tokens] [--no-typecheck] [FILE]\n"

/-- The bytes that a request is about, `none` if its file cannot be read. -/
def readInput (i : Invocation) : IO (Option (List UInt8)) := do
  match i.file with
  | none => return some (← (← IO.getStdin).readBinToEnd).toList
  | some name =>
    try return some (← IO.FS.readBinFile name).toList
    catch _ => return none

/-- Runs the command with some arguments. -/
def runCommand (args : List String) : IO UInt32 := do
  match Invocation.ofArgs? args with
  | none =>
    IO.eprint usage
    return 2
  | some i =>
    let outcome := i.perform (← readInput i)
    IO.print outcome.stdout
    IO.eprint outcome.stderr
    return outcome.status.toUInt32

end ListScript

def main (args : List String) : IO UInt32 := ListScript.runCommand args
