import Overseer.Fleet
import Overseer.Tree.Termination

/-!
# Teardown

The registry is emptied at once, and the trees of all its entries are ended side by side. Where the
ending of a tree succeeds, the report of the end of its process is waited for too. Failures are
collected, and reported in the order of the entries when all is over; they stop nothing.
-/

namespace Overseer

open Overseer.Tree Number Text

inductive EntryEnd where
  | ending (tree : Termination)
  | waiting
  | ended (failure : Option Failure)
  deriving DecidableEq, Repr

structure Teardown where
  entries : List (Tracked × EntryEnd)
  deriving DecidableEq, Repr

namespace Teardown

def awaitEnd (entry : Tracked) (f : Fleet) : EntryEnd :=
  if f.isRunning entry.process then .waiting else .ended none

def pollEntry (f : Fleet) (entry : Tracked) : EntryEnd → Fleet × EntryEnd
  | .ending tree =>
    match tree.poll f.scene with
    | (scene, .pending tree) => ({ f with scene }, .ending tree)
    | (scene, .done (.error failure)) => ({ f with scene }, .ended (some failure))
    | (scene, .done (.ok ())) =>
      let f := { f with scene }
      (f, awaitEnd entry f)
  | .waiting => (f, awaitEnd entry f)
  | .ended failure => (f, .ended failure)

def pollEntries (f : Fleet) : List (Tracked × EntryEnd) → Fleet × List (Tracked × EntryEnd)
  | [] => (f, [])
  | (entry, sofar) :: rest =>
    let (f, sofar) := pollEntry f entry sofar
    let (f, rest) := pollEntries f rest
    (f, (entry, sofar) :: rest)

def isOver : EntryEnd → Bool
  | .ended _ => true
  | _ => false

def failureNote? : Tracked × EntryEnd → Option Note
  | (entry, .ended (some failure)) =>
    let command := quoted entry.command
    let reason := failure.message
    some
      { level := .error, origin := .registry
        text := s!"Failed to kill process pid={entry.pid} command={command}: {reason}" }
  | _ => none

/-- Goes as far as can be at this moment. Nothing is ever raised. -/
def poll (t : Teardown) (f : Fleet) : Fleet × Progress Teardown Unit :=
  let (f, entries) := pollEntries f t.entries
  if entries.all (isOver ·.2) then (f.report (entries.filterMap failureNote?), .done ())
  else (f, .pending { entries })

def startNote (count : Nat) : Note :=
  { origin := .registry, text := s!"Tearing down {count} process(es)" }

def start (termLimit killLimit : Seconds) (f : Fleet) : Fleet × Progress Teardown Unit :=
  match f.registry.entries with
  | [] => (f, .done ())
  | entries =>
    let f := { f with registry := {} }.report [startNote entries.length]
    poll
      { entries := entries.map fun entry =>
          (entry, .ending { pid := entry.pid, termLimit, killLimit }) }
      f

def wakeEntry : EntryEnd → Option Instant
  | .ending tree => tree.wake
  | _ => none

def wake (t : Teardown) : Option Instant :=
  t.entries.foldl (fun moment entry => Instant.earlier moment (wakeEntry entry.2)) none

/-- Whether the teardown holds a process: it does so while it waits for its end. -/
def holds (t : Teardown) (process : ProcessId) : Bool :=
  t.entries.any fun (entry, sofar) => entry.process == process && sofar == .waiting

end Teardown

end Overseer
