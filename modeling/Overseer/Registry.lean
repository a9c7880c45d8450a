import Overseer.Journal
import Overseer.Text.Quoted

/-!
# The registry

The processes that are to be ended when a scope ends. There is one entry for each pid, and entries
stay in the order in which their pids were first tracked. An entry names the process it was made
for without keeping it: a process may have exited or been released since, and another one may have
taken its pid. Only that very process is taken off again.
-/

namespace Overseer

open Text

/-- The identity of a supervised process, which no later process shares. -/
abbrev ProcessId := Nat

inductive Standing where
  | running
  | exited
  /-- Nobody holds the process any more. -/
  | released
  deriving DecidableEq, Repr

def Standing.word : Standing → String
  | .running => "running"
  | .exited => "exited"
  | .released => "released"

structure Tracked where
  pid : Int
  command : String
  process : ProcessId
  deriving DecidableEq, Repr

def Tracked.describe (standing : ProcessId → Standing) (t : Tracked) : String :=
  let command := quoted t.command
  let status := (standing t.process).word
  s!"TrackedProcess(pid={t.pid}, status={status}, command={command})"

structure Registry where
  entries : List Tracked := []
  deriving DecidableEq, Repr

namespace Registry

def note (text : String) (entry : String) : Note :=
  { origin := .registry, text := text ++ entry }

def find? (r : Registry) (pid : Int) : Option Tracked := r.entries.find? (·.pid == pid)

def pids (r : Registry) : List Int := r.entries.map (·.pid)

/-- The entries with one for its pid: in the place of the former one, or last. -/
def place (entry : Tracked) : List Tracked → List Tracked
  | [] => [entry]
  | t :: rest => if t.pid = entry.pid then entry :: rest else t :: place entry rest

/-- Tracks a process. Tracking it again changes nothing; a different process under the same pid is
replaced. -/
def register (r : Registry) (standing : ProcessId → Standing) (entry : Tracked) :
    Registry × List Note :=
  let tracked := note "Registered process: " (entry.describe standing)
  match r.find? entry.pid with
  | some current =>
    if current.process = entry.process then (r, [])
    else
      (⟨place entry r.entries⟩,
        [note "Replacing stale entry for reused pid: " (current.describe standing), tracked])
  | none => (⟨place entry r.entries⟩, [tracked])

def unregister (r : Registry) (standing : ProcessId → Standing) (pid : Int)
    (process : ProcessId) : Registry × Bool × List Note :=
  match r.find? pid with
  | some current =>
    if current.process = process then
      (⟨r.entries.filter (·.pid != pid)⟩, true,
        [note "Unregistered process: " (current.describe standing)])
    else (r, false, [])
  | none => (r, false, [])

end Registry

end Overseer
