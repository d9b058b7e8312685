import LineBasic.Command.Session

/-!
The command on a real disk.
-/

namespace LineBasic.Command

def FileFault.ofError : IO.Error → FileFault
  | .noFileOrDirectory .. => notFound
  | .inappropriateType _ code _ =>
    if code = 21 ∨ code = 0 - 21 then isDirectory else notDirectory
  | error => other (toString error)

def access {α : Type} (action : IO α) : IO (Except FileFault α) := do
  match ← action.toBaseIO with
  | .ok a => return .ok a
  | .error error => return .error (.ofError error)

end LineBasic.Command

open LineBasic.Command

def main (arguments : List String) : IO UInt32 := do
  match Options.parse? arguments with
  | none =>
    IO.print usage
    return usageCode
  | some options =>
    IO.print (beforeReading options)
    match afterReading options (← access (IO.FS.readBinFile options.input)) with
    | (console, none) =>
      IO.print console
      return failureCode
    | (console, some assembly) =>
      IO.print console
      let written ← access (IO.FS.writeBinFile options.output assembly.toUTF8)
      let (closing, exitCode) := afterWriting options written
      IO.print closing
      return exitCode
