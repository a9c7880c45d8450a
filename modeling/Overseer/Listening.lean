import Overseer.LineWait
import Overseer.Timeline

/-!
# Listening

Any number of waits on one log that is fed at given times.
-/

namespace Overseer

open Number Pattern

inductive Feed where
  | append (line : String)
  | close
  deriving DecidableEq, Repr

structure Listening where
  now : Instant := 0
  log : OutputLog := {}
  coming : List (Instant × Feed) := []
  usualLimit : Seconds := LineWait.usualLimit
  journal : Journal := #[]
  deriving Repr

namespace Listening

inductive Command where
  | wait (pattern : PatternText) (limit : Option Seconds)
  | append (line : String)
  | close
  | state
  deriving DecidableEq, Repr

inductive Answer where
  | nothing
  | found (found : Match)
  | state (subscribers : Nat) (lines : Array String) (closed : Bool)
  deriving Repr

abbrev Result := Except Failure Answer

def report (s : Listening) (notes : List Note) : Listening :=
  { s with journal := s.journal.add s.now notes }

def closeLog (s : Listening) : Listening :=
  let (log, notes) := s.log.close
  { s with log }.report notes

/-- Takes in what comes. Lines that come after the end are dropped. -/
def take (s : Listening) : Feed → Listening
  | .append line => { s with log := (s.log.append? line).getD s.log }
  | .close => s.closeLog

def advance (s : Listening) (t : Instant) : Listening :=
  let due := s.coming.takeWhile (·.1 ≤ t)
  let s := { s with now := t, coming := s.coming.dropWhile (·.1 ≤ t) }
  due.foldl (fun s entry => s.take entry.2) s

/-- A log that is fed at given times; what comes at the start has come. -/
def ofFeed (usualLimit : Option Seconds) (feed : List (Instant × Feed)) : Listening :=
  let usualLimit := usualLimit.getD LineWait.usualLimit
  advance { usualLimit, coming := feed.mergeSort (fun a b => a.1 ≤ b.1) } 0

def poll (w : LineWait) (s : Listening) : Listening × Progress LineWait Result :=
  let (log, notes, progress) := w.poll s.now s.log
  ({ s with log }.report notes, progress.map id (·.map .found))

def start (command : Command) (s : Listening) : Listening × Progress LineWait Result :=
  match command with
  | .wait pattern limit =>
    match pattern.compile with
    | .error failure => (s, .done (.error failure))
    | .ok pattern =>
      let (log, w) := LineWait.start pattern (limit.getD s.usualLimit) s.now s.log
      poll w { s with log }
  | .append line =>
    match s.log.append? line with
    | some log => ({ s with log }, .done (.ok .nothing))
    | none => (s, .done (.error .closedLog))
  | .close => (s.closeLog, .done (.ok .nothing))
  | .state =>
    (s, .done (.ok (.state s.log.subscribers.length s.log.lines s.log.closed)))

def machinery : Machinery Listening Command LineWait Result where
  now := now
  nextChange s := s.coming.head?.map (·.1)
  advance := advance
  deliver := id
  complete := id
  start _ := start
  poll := poll
  wake w := w.deadline
  cancel w s := { s with log := w.stop s.log }

def run (s : Listening) (script : List (Step Command)) : Listening × Transcript Result :=
  Timeline.runScript machinery s script

end Listening

end Overseer
