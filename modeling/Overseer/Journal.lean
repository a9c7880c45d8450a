import Overseer.Clock

/-!
# The journal

What the parts of the library report while they work: each note has a level and the part it comes
from, and an entry is a note at a moment. Entries stand in the order they were made.
-/

namespace Overseer

inductive Level where
  | debug
  | info
  | warning
  | error
  deriving DecidableEq, Repr

def Level.name : Level → String
  | .debug => "DEBUG"
  | .info => "INFO"
  | .warning => "WARNING"
  | .error => "ERROR"

def Level.rank : Level → Nat
  | .debug => 10
  | .info => 20
  | .warning => 30
  | .error => 40

inductive Origin where
  | registry
  | commands
  | handle
  | output
  | supervision
  | termination
  | waits
  | entry
  deriving DecidableEq, Repr

def Origin.name : Origin → String
  | .registry => "cleanup"
  | .commands => "commands"
  | .handle => "harness"
  | .output => "runtime.output_log"
  | .supervision => "runtime.process_runner"
  | .termination => "runtime.tree_kill"
  | .waits => "waiter"
  | .entry => "__main__"

structure Note where
  level : Level := .debug
  origin : Origin
  text : String
  deriving DecidableEq, Repr

structure Entry where
  time : Instant
  note : Note
  deriving DecidableEq, Repr

abbrev Journal := Array Entry

namespace Journal

def add (j : Journal) (time : Instant) (notes : List Note) : Journal :=
  j ++ notes.map fun note => (⟨time, note⟩ : Entry)

/-- Whether one entry may stand before another that was made later, when entries of one
millisecond are ordered by their part. -/
def mayPrecede (a b : Entry) : Bool :=
  let s := Instant.toMillis a.time
  let t := Instant.toMillis b.time
  s < t || (s == t && a.note.origin.name ≤ b.note.origin.name)

def byPart (j : Journal) : List Entry := j.toList.mergeSort mayPrecede

end Journal

end Overseer
