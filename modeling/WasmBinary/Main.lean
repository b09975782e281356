import WasmBinary.CommandLine

/-!
The command line program.
-/

open WasmBinary.CommandLine in
/-- Encodes the demonstration module as the arguments say. -/
def main (arguments : List String) : IO UInt32 := do
  match action arguments with
  | .print text =>
      IO.print text
      return exitSuccess
  | .refuse error =>
      IO.eprintln ("error: " ++ error.message)
      return exitUsage
  | .abort error =>
      IO.eprintln ("Error: " ++ error.message)
      return exitFailure
  | .write path bytes report =>
      try
        IO.FS.writeBinFile path ⟨bytes⟩
        IO.print report
        return exitSuccess
      catch error =>
        IO.eprintln ("Error: " ++ toString error)
        return exitFailure
