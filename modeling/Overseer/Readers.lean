import Overseer.Failure
import Overseer.OutputLog

/-!
# Readers of a log

A log together with the names of queues on it. A name means the queue that it was given last; the
queue it meant before keeps its subscription.
-/

namespace Overseer

/-- A log and the named queues, the latest first. -/
structure Readers where
  log : OutputLog := {}
  named : List (String × QueueId) := []
  deriving DecidableEq, Repr

namespace Readers

inductive Command where
  | append (line : String)
  | close
  | subscribe (name : String)
  | unsubscribe (name : String)
  | drain (name : String)
  | lines
  | snapshot
  deriving DecidableEq, Repr

inductive Answer where
  | nothing
  | items (items : Array Item)
  | lines (lines : Array String)
  | text (text : String)
  deriving DecidableEq, Repr

def perform (r : Readers) : Command → Readers × List Note × Except Failure Answer
  | .append line =>
    match r.log.append? line with
    | some log => ({ r with log }, [], .ok .nothing)
    | none => (r, [], .error .closedLog)
  | .close =>
    let (log, notes) := r.log.close
    ({ r with log }, notes, .ok .nothing)
  | .subscribe name =>
    let (log, queue) := r.log.subscribe
    ({ log, named := (name, queue) :: r.named }, [], .ok .nothing)
  | .unsubscribe name =>
    match r.named.lookup name with
    | some queue => ({ r with log := r.log.unsubscribe queue }, [], .ok .nothing)
    | none => (r, [], .error (.unknownName name))
  | .drain name =>
    match r.named.lookup name with
    | some queue =>
      let (log, items) := r.log.drain queue
      ({ r with log }, [], .ok (.items items))
    | none => (r, [], .error (.unknownName name))
  | .lines => (r, [], .ok (.lines r.log.lines))
  | .snapshot => (r, [], .ok (.text r.log.snapshot))

end Readers

end Overseer
