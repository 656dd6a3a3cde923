import Shading.CommandLine

/-!
# The program

Reads the file that the command line names, and prints the outcome. -/

namespace Shading

namespace Command

/-- The number of a system error, which some operations report with a negative sign. -/
def errorNumber (code : UInt32) : Nat := code.toInt32.toInt.natAbs

/-- What a failed reading of a file says about the file. -/
def FileFault.ofError : IO.Error → FileFault
  | .noFileOrDirectory .. => .notFound
  | .permissionDenied .. => .accessDenied
  | .inappropriateType _ code _ => if errorNumber code = 21 then .isDirectory else .notDirectory
  | .invalidArgument _ code details =>
    if errorNumber code = 36 then .nameTooLong else .other details
  | e => .other (toString e)

/-- The contents of a file. -/
def readFile (path : String) : IO (Except FileFault ByteArray) := do
  return (← (IO.FS.readBinFile path).toBaseIO).mapError FileFault.ofError

/-- How the program is called. -/
def usage : String :=
  "Usage: shading compile --graph <GRAPH> [--no-bump] [--object-space-bump] [--aov <NAME[:color]>]\n" ++
  "                       [--stage simplify|finalize] [--format json|text|dot]\n" ++
  "       shading hash --graph <GRAPH>\n"

/-- Runs a command line. -/
def run (args : List String) : IO Outcome := do
  match ofArgs? args with
  | some command => return command.outcome (← readFile command.path)
  | none => return { misuse with stderr := usage }

end Command

end Shading

def main (args : List String) : IO UInt32 := do
  let outcome ← Shading.Command.run args
  IO.print outcome.stdout
  IO.eprint outcome.stderr
  return UInt32.ofNat outcome.exit
