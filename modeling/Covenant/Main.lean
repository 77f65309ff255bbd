import Covenant.Command.Report

/-!
# The program

Reads the files that a command line is about, and prints the answer to it.
-/

namespace Covenant.Command

/-- The reason that the system gives for not reading a file. -/
def readFault : IO.Error → ReadFault
  | .noFileOrDirectory .. => .missing
  | .inappropriateType _ 20 _ => .notDirectory
  | .inappropriateType _ 21 _ => .isDirectory
  | e => .other (toString e)

/-- Reads files in advance. -/
def readAll (paths : List String) : IO ReadFile := do
  let contents ← paths.mapM fun (path : String) => do
    let result ← (IO.FS.readFile path).toBaseIO
    return (path, result.mapError readFault)
  return fun path => (Table.find? path contents).getD (.error .missing)

end Covenant.Command

def main (args : List String) : IO UInt32 := do
  let reading := Covenant.Command.Reading.ofArgs args
  let read ← Covenant.Command.readAll (Covenant.Command.filesFor reading)
  let report := Covenant.Command.answer read reading
  IO.print report.stdout
  IO.eprint report.stderr
  return report.exitCode.toUInt32
