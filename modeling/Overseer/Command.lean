import Overseer.Path
import Overseer.Settings

/-!
# Commands

A command is written the way a user types it. Its first word is replaced by the configured program,
and a launch says how the result is started: where, with which environment, and apart from the
caller's own processes.
-/

namespace Overseer

open Text

/-- A command with the configured program in place of its first word. -/
def Settings.commandLine (s : Settings) (command : String) : Except Failure String :=
  let lead := s.cliPrefix.toList ++ [' ']
  if lead.isPrefixOf command.toList then
    .ok (s.cliPath ++ " " ++ String.ofList (command.toList.drop lead.length))
  else
    let start := s.cliPrefix
    let given := quoted command
    .error (.usage
      s!"Commands must start with `{start}` (e.g. `{start} dev`), got {given}")

structure Request where
  command : String
  cwd : Option String := none
  env : Option Environment := none
  debug : Bool := false
  deriving DecidableEq, Repr

structure Isolation where
  env : Option Environment
  newSession : Bool
  newGroup : Bool
  deriving DecidableEq, Repr

/-- The isolation of a process. The environment is passed on as it is unless something is set. -/
def Isolation.of (ambient : Environment) (windows : Bool) (debugVariable : String)
    (env : Option Environment) (debug : Bool) : Isolation :=
  let own : Option Environment :=
    if env.isNone && !debug then none
    else
      let set := ambient.overlay (env.getD [])
      some (if debug then set.set debugVariable "debug" else set)
  { env := own, newSession := !windows, newGroup := windows }

structure Launch where
  command : String
  cwd : String
  isolation : Isolation
  deriving DecidableEq, Repr

def Request.launch (r : Request) (s : Settings) (current : String) (ambient : Environment)
    (windows : Bool) : Except Failure Launch := do
  let command ← s.commandLine r.command
  return {
    command
    cwd := Path.normalize (r.cwd.getD current)
    isolation := .of ambient windows s.debugVariable r.env r.debug }

end Overseer
