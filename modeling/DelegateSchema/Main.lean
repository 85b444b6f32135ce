/-
  DelegateSchema.Main — the program.

  The thin outer layer: files, environment and streams of the real system.  A formatter is never
  started from here; that it could not be started is reported like any other failure of it.
-/
import DelegateSchema.CommandLine

namespace DelegateSchema.System

open Host (FileError Ending)

/-- What a failed call of the system means. -/
def faultOf : IO.Error → FileError
  | .noFileOrDirectory .. => .missing
  | .alreadyExists .. => .occupied
  | .permissionDenied .. => .denied
  | .inappropriateType _ code details => ofCode code details
  | .noSuchThing _ code details => ofCode code details
  | e => .other (toString e)
where
  /-- Faults that are told apart by their number, which may come with its sign changed. -/
  ofCode (code : UInt32) (details : String) : FileError :=
    if code = 20 || code + 20 = 0 then .notFolder
    else if code = 21 || code + 21 = 0 then .isFolder
    else .other (details ++ " (os error " ++ toString code ++ ")")

/-- Turns a call of the system into an operation that answers its fault. -/
def attempt {α : Type} (call : IO α) : IO (Except FileError α) := do
  match ← call.toBaseIO with
  | .ok value => return .ok value
  | .error e => return .error (faultOf e)

/-- The operations of the real system. -/
def host : Host IO where
  readBytes path := attempt (IO.FS.readBinFile path)
  createFolders path := attempt (IO.FS.createDirAll path)
  writeText path content := attempt (IO.FS.writeFile path content)
  run _ _ _ := return .notStarted (.other "programs cannot be started")

/-- The environment variables that settings come from. -/
def variableNames : List String :=
  ["POLYSCHEMA_OUTPUT", "POLYSCHEMA_MODE", "POLYSCHEMA_FORMAT", "POLYSCHEMA_CLIENT_OUTPUT",
   "POLYSCHEMA_FORMATTER", "POLYSCHEMA_FORMATTER_TIMEOUT", "POLYSCHEMA_IDENTIFIER_MAX_LENGTH",
   "POLYSCHEMA_PROJECT_ROOT"]

/-- The values of these variables. -/
def environment : IO Environment :=
  variableNames.filterMapM fun name => do return (← IO.getEnv name).map (name, ·)

end DelegateSchema.System

open DelegateSchema in
/-- Runs the program on its arguments. -/
def main (args : List String) : IO UInt32 := do
  let report ← CommandLine.run System.host (← System.environment) args
  unless report.output.isEmpty do IO.println report.output
  unless report.errors.isEmpty do IO.eprintln report.errors
  return UInt32.ofNat report.exit
