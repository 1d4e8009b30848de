import VeriScript.Disk
import VeriScript.Reading.Source
import VeriScript.Term.Error
import VeriScript.Typing.Error
import VeriScript.Value.Error

/-!
# How a run ends early

* `ScriptError` — an error of the script (`VSLError`), which `fails` anticipates.
* `Halt` — every way a run ends early; `ScriptError.halt` — the way it ends when an error is raised.
-/

namespace VeriScript

inductive ScriptError where
  | parse (e : ParseError)
  | type (e : TypeError)
  | runtime (e : RuntimeError)
  | term (e : TermError)
  deriving Repr

def ScriptError.message : ScriptError → String
  | .parse e => e.message
  | .type e => e.message
  | .runtime e => e.message
  | .term e => e.message

/-- What keeps the message of an error from being written. -/
def ScriptError.textFault? : ScriptError → Option Text.Fault
  | .type e => e.fault.textFault?
  | .runtime e => e.fault.textFault?
  | .parse _ | .term _ => none

inductive Halt where
  | error (e : ScriptError)
  /-- The script asked to end with a status. -/
  | exit (code : Int)
  /-- Calls or actions are nested too deeply. -/
  | overflow
  /-- The message of the error cannot be written; without its message there is no error. -/
  | unwritable (fault : Text.Fault) (e : ScriptError)
  /-- A script file could not be opened, for a reason that is no error of the script. -/
  | unopened (fault : DiskFault) (path : String)
  /-- The system refused to enter a directory. -/
  | unentered (fault : DiskFault) (p : Path)
  /-- A file of terms is no text. -/
  | undecodable (fault : Text.Utf8Fault)
  /-- The run needs to know what is at a path. -/
  | consult (p : Path)
  deriving Repr

/-- How a run ends when an error is raised. -/
def ScriptError.halt (e : ScriptError) : Halt :=
  match e.textFault? with
  | some fault => .unwritable fault e
  | none => .error e

end VeriScript
