import Overseer.Number.Seconds
import Overseer.Octets.Decoder
import Overseer.Text.JsonString
import Overseer.Text.Quoted

/-!
# Failures

Every way in which an operation can fail, by its cause; `Failure.message` has the wording. The
failures of the library itself (`Failure.isOwn`) are told apart from those that come from below it.
-/

namespace Overseer

open Number Text

inductive Failure where
  | general (text : String)
  | usage (text : String)
  | spawn (command cwd reason : String)
  | timeout (text output : String) (limit : Seconds) (pattern : Option String)
  | streamClosed (pattern output : String)
  | exitStatus (command : String) (code : Int) (output : String)
  | cleanup (pid : Int) (reason : String)
  | closedLog
  | badPattern
  | decoding (cause : Octets.DecodeError)
  /-- The group of a process could not be asked for. -/
  | notPermitted
  /-- A process could not be looked at. -/
  | accessDenied (pid : Int)
  | cancelled
  | unknownName (name : String)
  deriving DecidableEq, Repr

namespace Failure

def message : Failure → String
  | .general text => text
  | .usage text => text
  | .spawn command cwd reason =>
    let command := jsonString command
    s!"Failed to start {command} in {cwd}: {reason}"
  | .timeout text output _ _ => s!"{text}\nCommand output:\n{output}"
  | .streamClosed pattern output =>
    s!"Process output closed before matching /{pattern}/\nCommand output:\n{output}"
  | .exitStatus command _ output =>
    let command := jsonString command
    s!"Failed to run {command}:\n{output}"
  | .cleanup pid reason => s!"Failed to kill process tree pid={pid}: {reason}"
  | .closedLog => "Cannot append to a closed OutputLog"
  | .badPattern => ""
  | .decoding cause => cause.message
  | .notPermitted => "[Errno 1] Operation not permitted"
  | .accessDenied pid => s!"(pid={pid})"
  | .cancelled => ""
  | .unknownName name => name

def isOwn : Failure → Bool
  | .general _ | .usage _ | .spawn _ _ _ | .timeout _ _ _ _ | .streamClosed _ _
  | .exitStatus _ _ _ | .cleanup _ _ => true
  | _ => false

end Failure

end Overseer
