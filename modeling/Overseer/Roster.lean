import Overseer.Failure
import Overseer.Registry

/-!
# Rosters

Named processes and the registry that tracks some of them. A name means one process at a time; when
it is given to another process, or dropped, the former one is released.
-/

namespace Overseer

structure Member where
  pid : Int
  command : String
  running : Bool
  deriving DecidableEq, Repr

/-- All processes ever made, the names of those that are held, and the registry. -/
structure Roster where
  members : Array Member := #[]
  names : List (String × ProcessId) := []
  registry : Registry := {}
  deriving DecidableEq, Repr

namespace Roster

inductive Command where
  | create (name : String) (pid : Int) (command : String) (running : Bool)
  | register (name : String)
  | unregister (name : String)
  | exit (name : String)
  | drop (name : String)
  | contains (pid : Int)
  deriving DecidableEq, Repr

def standing (r : Roster) (process : ProcessId) : Standing :=
  if r.names.any (·.2 == process) then
    match r.members[process]? with
    | some member => if member.running then .running else .exited
    | none => .released
  else .released

def release (r : Roster) (name : String) : Roster :=
  { r with names := r.names.filter (·.1 != name) }

def find? (r : Roster) (name : String) : Option (ProcessId × Member) := do
  let process ← r.names.lookup name
  let member ← r.members[process]?
  return (process, member)

def entries (r : Roster) : List String := r.registry.entries.map (·.describe r.standing)

def perform (r : Roster) : Command → Roster × List Note × Except Failure (Option Bool)
  | .create name pid command running =>
    let process := r.members.size
    let r := { r.release name with members := r.members.push { pid, command, running } }
    ({ r with names := (name, process) :: r.names }, [], .ok none)
  | .register name =>
    match r.find? name with
    | none => (r, [], .error (.unknownName name))
    | some (process, member) =>
      let entry : Tracked := { pid := member.pid, command := member.command, process }
      let (registry, notes) := r.registry.register r.standing entry
      ({ r with registry }, notes, .ok none)
  | .unregister name =>
    match r.find? name with
    | none => (r, [], .error (.unknownName name))
    | some (process, member) =>
      let (registry, tracked, notes) := r.registry.unregister r.standing member.pid process
      ({ r with registry }, notes, .ok (some tracked))
  | .exit name =>
    match r.find? name with
    | none => (r, [], .error (.unknownName name))
    | some (process, _) =>
      ({ r with members := r.members.modify process ({ · with running := false }) }, [], .ok none)
  | .drop name => (r.release name, [], .ok none)
  | .contains pid => (r, [], .ok (some (r.registry.find? pid).isSome))

end Roster

end Overseer
