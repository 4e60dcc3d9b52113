import Styling.Command.Arguments
import Styling.Command.Inspection

/-! # The command line

Reads the files that an invocation names, writes its report to the standard streams, and ends
with the report's status.
-/
namespace Styling

def readErrorOf (path : List UInt8) : IO.Error → ReadError
  | .noFileOrDirectory _ _ _ => .missing
  | .inappropriateType _ code _ => if code == 21 then .isDirectory else .notDirectory
  | .invalidArgument _ _ _ => if path.contains 0 then .nulInName else .nameTooLong
  | .permissionDenied _ _ _ => .other "Permission denied (os error 13)"
  | e => .other (toString e)

def readTextAt (path : List UInt8) : IO (Except ReadError String) := do
  match Utf8.decode? path with
  | none => return .error .missing
  | some name =>
    try
      let bytes ← IO.FS.readBinFile (String.ofList name)
      return Files.textOf bytes.toList
    catch e => return .error (readErrorOf path e)

def readerOf (texts : List (List UInt8 × Except ReadError String)) : TextReader := fun path =>
  (texts.lookup path).getD (.error .missing)

end Styling

open Styling

def main (args : List String) : IO UInt32 := do
  let report ← match Invocation.read? args with
    | none => pure Report.usage
    | some invocation => do
      let texts ← invocation.paths.mapM fun path => do return (path, ← readTextAt path)
      pure (Inspection.run (readerOf texts) invocation)
  (← IO.getStderr).putStr report.errors
  (← IO.getStdout).putStr report.output
  return report.status.toUInt32
