/-
  ByteLisp: the program.

  * `main` runs the command line on the arguments, with files read from the disk.
-/
import ByteLisp.CommandLine

namespace ByteLisp.Program

/-- Reads a text file. -/
def readFile (path : String) : IO (Except FileError String) := do
  try
    let bytes ← IO.FS.readBinFile path
    match String.fromUTF8? bytes with
    | some text => return .ok text
    | none => return .error .notText
  catch
    | .noFileOrDirectory .. => return .error .notFound
    | .inappropriateType .. => return .error .isDirectory
    | e => return .error (.other (toString e))

/-- More steps than any run can make. -/
def budget : Nat := Nat.pow 2 62

end ByteLisp.Program

open ByteLisp in
/-- Runs the command line. -/
def main (args : List String) : IO UInt32 := do
  let terminal ← (← IO.getStdout).isTty
  let colours := CommandLine.colours (← IO.getEnv "CLICOLOR") (← IO.getEnv "CLICOLOR_FORCE")
    (← IO.getEnv "NO_COLOR") terminal
  let out ← CommandLine.run Program.readFile Program.budget colours args
  IO.print out.stdout
  IO.eprint out.stderr
  return out.status.toUInt32
