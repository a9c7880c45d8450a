import Overseer.Journal

/-!
# The output log

The lines of one process in the order they came, for any number of readers. A reader takes a
snapshot, or subscribes and gets every line from then on in a queue of its own. When the log closes,
each subscriber gets one end mark; nothing is added to a closed log.
-/

namespace Overseer

inductive Item where
  | line (text : String)
  | ended
  deriving DecidableEq, Repr

abbrev QueueId := Nat

/-- A log. Queue `n` is the `n`-th one made; `subscribers` are the queues that still get lines, in
the order of subscription. -/
structure OutputLog where
  lines : Array String := #[]
  closed : Bool := false
  queues : Array (Array Item) := #[]
  subscribers : List QueueId := []
  deriving DecidableEq, Repr

namespace OutputLog

def snapshot (log : OutputLog) : String := "\n".intercalate log.lines.toList

def put (log : OutputLog) (item : Item) : OutputLog :=
  { log with
    queues := log.subscribers.foldl (fun queues q => queues.modify q (·.push item)) log.queues }

def append? (log : OutputLog) (line : String) : Option OutputLog :=
  if log.closed then none
  else some { log.put (.line line) with lines := log.lines.push line }

/-- Adds some lines to an open log; a closed log stays as it is. -/
def appendAll (log : OutputLog) (lines : Array String) : OutputLog :=
  lines.foldl (fun log line => (log.append? line).getD log) log

def closingNote (log : OutputLog) : Note :=
  let lines := log.lines.size
  let subscribers := log.subscribers.length
  { origin := .output, text := s!"Output closed lines={lines} subscribers={subscribers}" }

def close (log : OutputLog) : OutputLog × List Note :=
  if log.closed then (log, [])
  else ({ log.put .ended with closed := true }, [log.closingNote])

/-- A new queue. On a closed log it holds the end mark alone and gets nothing. -/
def subscribe (log : OutputLog) : OutputLog × QueueId :=
  let q := log.queues.size
  if log.closed then ({ log with queues := log.queues.push #[.ended] }, q)
  else ({ log with queues := log.queues.push #[], subscribers := log.subscribers ++ [q] }, q)

/-- Takes a queue off the subscribers; what it holds stays in it. -/
def unsubscribe (log : OutputLog) (q : QueueId) : OutputLog :=
  { log with subscribers := log.subscribers.erase q }

def queue (log : OutputLog) (q : QueueId) : Array Item := log.queues[q]?.getD #[]

def drain (log : OutputLog) (q : QueueId) : OutputLog × Array Item :=
  ({ log with queues := log.queues.setIfInBounds q #[] }, log.queue q)

end OutputLog

end Overseer
