import Overseer.Failure
import Overseer.OutputLog
import Overseer.Pattern.Matching
import Overseer.Progress

/-!
# Waiting for a line

A wait ends with the first line of a log that matches a pattern, among the lines that are added
after it has begun. It fails when the log closes before such a line comes, and when its limit runs
out; the failure carries the whole output so far. While it is pending a wait holds one subscription,
which it gives up at its end, however it ends.
-/

namespace Overseer

open Number Pattern

structure PatternText where
  text : String
  modes : Modes := {}
  deriving DecidableEq, Repr

def PatternText.compile (p : PatternText) : Except Failure Compiled :=
  match Pattern.compile p.modes p.text with
  | .ok pattern => .ok pattern
  | .error _ => .error .badPattern

structure LineWait where
  queue : QueueId
  pattern : Compiled
  limit : Seconds
  deadline : Option Instant
  deriving Repr

namespace LineWait

def usualLimit : Seconds := .ofDecimal 10 0

abbrev Result := Except Failure Match

def start (pattern : Compiled) (limit : Seconds) (now : Instant) (log : OutputLog) :
    OutputLog × LineWait :=
  let (log, queue) := log.subscribe
  (log, { queue, pattern, limit, deadline := limit.deadline now })

/-- What the items of a queue decide: the first line that matches, or else the end mark. -/
def verdict (pattern : Compiled) (output : String) : List Item → Option Result
  | [] => none
  | .ended :: _ => some (.error (.streamClosed pattern.text output))
  | .line line :: rest =>
    match pattern.search line with
    | some found => some (.ok found)
    | none => verdict pattern output rest

def timeoutText (w : LineWait) : String :=
  let limit := w.limit.text
  let pattern := w.pattern.text
  s!"Timed out after {limit}s waiting for /{pattern}/"

def timeoutFailure (w : LineWait) (output : String) : Failure :=
  .timeout w.timeoutText output w.limit (some w.pattern.text)

def timeoutNote (w : LineWait) : Note := { origin := .waits, text := w.timeoutText }

def stop (w : LineWait) (log : OutputLog) : OutputLog := log.unsubscribe w.queue

/-- Looks at what has come. What is there decides before the limit does. -/
def poll (w : LineWait) (now : Instant) (log : OutputLog) :
    OutputLog × List Note × Progress LineWait Result :=
  let (log, items) := log.drain w.queue
  match verdict w.pattern log.snapshot items.toList with
  | some result => (w.stop log, [], .done result)
  | none =>
    if Instant.reached now w.deadline then
      (w.stop log, [w.timeoutNote], .done (.error (w.timeoutFailure log.snapshot)))
    else (log, [], .pending w)

end LineWait

end Overseer
