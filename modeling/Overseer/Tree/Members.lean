import Overseer.Failure
import Overseer.World.Scene

/-!
# The members of a process tree

A tree is the group that its root leads, together with the descendants of the root that have left
the group. A pid that leads no group of its own is no root: the pid has passed to a stranger. Where
there are no groups of this kind, the tree is the root and its descendants.
-/

namespace Overseer.Tree

open World

def note (text : String) : Note := { origin := .termination, text }

/-- Whether a process is alive. A zombie is not: it only waits to be collected. -/
def isAlive (w : System) (p : ProcessRef) : Except Failure Bool :=
  if w.isRunning p then
    match w.isZombie p with
    | .ok zombie => .ok (!zombie)
    | .error .absent => .ok false
    | .error .denied => .error (.accessDenied p.pid)
  else .ok false

def survivors (w : System) : List ProcessRef → Except Failure (List ProcessRef)
  | [] => .ok []
  | p :: rest => do
    let alive ← isAlive w p
    let others ← survivors w rest
    return if alive then p :: others else others

/-- The processes whose group is the given one, as far as their groups can be asked for. -/
def groupMembers (w : System) (pgid : Int) : List ProcessRef :=
  w.allProcesses.filter fun p =>
    match w.group p.pid with
    | .ok g => g == pgid
    | .error _ => false

/-- Whether a pid may be the root of a tree. That its group cannot be asked for is an error, that
there is no such process is not. -/
def isRoot (w : System) (pid : Int) : Except Failure Bool :=
  if w.windows then .ok true
  else match w.group pid with
  | .ok g => .ok (g == pid)
  | .error .absent => .ok false
  | .error .denied => .error .notPermitted

def blindNote (pid refused : Int) : Note :=
  note s!"Cannot enumerate children of pid={pid}: (pid={refused})"

def rootFamily (w : System) (pid : Int) : Except Failure (List ProcessRef) × List Note :=
  match w.openProcess pid with
  | .error .absent => (.ok [], [])
  | .error .denied => (.ok [], [blindNote pid pid])
  | .ok root =>
    match isRoot w pid with
    | .error failure => (.error failure, [])
    | .ok false => (.ok [], [])
    | .ok true =>
      match w.descendants root with
      | .ok below => (.ok (root :: below), [])
      | .error .absent => (.ok [root], [])
      | .error .denied => (.ok [root], [blindNote pid pid])

/-- Some processes followed by those of others whose pids are new. -/
def merge (first second : List ProcessRef) : List ProcessRef :=
  second.foldl
    (fun found p => if found.any (·.pid == p.pid) then found else found ++ [p]) first

/-- The live members of the tree of a pid: the root first, then its descendants, then the rest of
the group. -/
def members (w : System) (pid : Int) : Except Failure (List ProcessRef) × List Note :=
  match rootFamily w pid with
  | (.error failure, notes) => (.error failure, notes)
  | (.ok found, notes) =>
    let all := if w.windows then found else merge found (groupMembers w pid)
    (survivors w all, notes)

end Overseer.Tree
