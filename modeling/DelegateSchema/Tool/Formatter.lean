/-
  DelegateSchema.Tool.Formatter — running an external formatter on a written schema.

  The formatter is a command line.  White space divides it into a program and arguments, and
  there is no quoting; the path of the schema comes as the last argument.
-/
import DelegateSchema.Host.Basic
import DelegateSchema.Text.Blank

namespace DelegateSchema.Tool

open Host (Ending)

/-- Why a schema could not be formatted. -/
inductive FormatError where
  /-- The command never started. -/
  | notStarted (command cause : String)
  /-- The command ended with a status other than zero. -/
  | failed (command : String) (status : Nat)
  /-- The command took longer than so many whole seconds. -/
  | timedOut (command : String) (seconds : Nat)
  deriving DecidableEq

/-- The wording of a fault. -/
def FormatError.message : FormatError → String
  | .notStarted command cause => "Failed to start formatter `" ++ command ++ "`: " ++ cause
  | .failed command status =>
    "Formatter `" ++ command ++ "` exited with exit status: " ++ status.repr
  | .timedOut command seconds =>
    "Formatter `" ++ command ++ "` did not finish within " ++ seconds.repr ++ "s"

/-- A formatter. -/
structure Formatter where
  command : String
  /-- How many milliseconds it may take. -/
  timeout : Option Nat := none

namespace Formatter

/-- The milliseconds between two looks at a running formatter. -/
def lookInterval : Nat := 50

/-- The moment of the first look at which the time is up. -/
def lastLook (timeout : Nat) : Nat :=
  (timeout + lookInterval - 1) / lookInterval * lookInterval

/-- What the end of a run means. -/
def judge (f : Formatter) : Ending → Except FormatError Unit
  | .notStarted cause => .error (.notStarted f.command cause.message)
  | .exited 0 => .ok ()
  | .exited status => .error (.failed f.command status)
  | .stopped => .error (.timedOut f.command (f.timeout.getD 0 / 1000))

/-- Formats the schema at the given path. -/
def format {m : Type → Type} [Monad m] (f : Formatter) (host : Host m) (path : String) :
    m (Except FormatError Unit) :=
  match Text.words f.command.toList with
  | [] => pure (.error (.notStarted f.command "empty command"))
  | program :: args => do
    let args := args.map String.ofList ++ [path]
    return f.judge (← host.run (String.ofList program) args (f.timeout.map lastLook))

end Formatter

end DelegateSchema.Tool
