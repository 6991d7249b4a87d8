import Fixity.Command

/-!
# The program

Reads the files that the arguments name, runs the command on them and prints what it
leaves behind.
-/

namespace Fixity

/-- Why a file could not be read, from what the system reports. -/
def readError (error : IO.Error) : ReadError :=
  match error with
  | .noFileOrDirectory .. => .notFound
  | .permissionDenied .. => .forbidden
  | .inappropriateType _ code _ =>
    if code = 21 ∨ code = 0 - 21 then .isADirectory else .notADirectory
  | .invalidArgument _ code _ =>
    if code = 36 ∨ code = 0 - 36 then .nameTooLong else .other error.toString
  | _ => .other error.toString

/-- The text of a file, or why it cannot be read. -/
def readText (file : String) : IO (Except ReadError String) := do
  try
    let bytes ← IO.FS.readBinFile file
    match String.fromUTF8? bytes with
    | some text => return .ok text
    | none => return .error .notText
  catch error => return .error (readError error)

/-- Runs the command on the files that its arguments name. -/
def runCommand (arguments : List String) : IO Command.Report := do
  let mut known : List (String × Except ReadError String) := []
  for file in Command.filesRead arguments do
    known := known ++ [(file, ← readText file)]
  let texts := known
  return Command.run (fun file => (texts.lookup file).getD (.error .notFound)) arguments

end Fixity

/-- The entry point. -/
def main (arguments : List String) : IO UInt32 := do
  let report ← Fixity.runCommand arguments
  IO.print report.output
  IO.eprint report.errors
  return report.code.toUInt32
