import Overseer.Clock

/-!
# Processes

The processes of the simulated system: who they descend from, which group they belong to, how they
react to signals, and which calls on them fail.
-/

namespace Overseer.World

inductive Signal where
  | term
  | kill
  deriving DecidableEq, Repr

def Signal.name : Signal → String
  | .term => "SIGTERM"
  | .kill => "SIGKILL"

structure OsError where
  number : Int
  text : String
  deriving DecidableEq, Repr

def OsError.message (e : OsError) : String :=
  let number := e.number
  s!"[Errno {number}] {e.text}"

inductive Refusal where
  | denied
  | absent
  deriving DecidableEq, Repr

/-- The calls on a process that are made to fail, and how. -/
structure Obstacles where
  opening : Option Refusal := none
  children : Option Refusal := none
  status : Option Refusal := none
  terminate : Option Refusal := none
  kill : Option Refusal := none
  group : Option Refusal := none
  deriving DecidableEq, Repr

structure ProcessSpec where
  pid : Int
  ppid : Int
  pgid : Int
  /-- Whether it has exited already and only waits to be collected. -/
  zombie : Bool := false
  /-- How long it lives after the request to end; without it the request is ignored. -/
  onTerm : Option Nat := some 0
  /-- How long it lives after being killed; without it that is ignored. -/
  onKill : Option Nat := some 0
  leavesZombie : Bool := false
  obstacles : Obstacles := {}
  deriving DecidableEq, Repr

/-- The number of a process in the order of creation. A pid can be used again, a serial cannot. -/
abbrev Serial := Nat

abbrev ChildId := Nat

structure Process extends ProcessSpec where
  serial : Serial
  child : Option ChildId := none
  termSeen : Bool := false
  killSeen : Bool := false
  deriving DecidableEq, Repr

/-- A process as a caller holds it: it means this very process, also after the pid has passed to
another one. -/
structure ProcessRef where
  pid : Int
  serial : Serial
  obstacles : Obstacles
  deriving DecidableEq, Repr

def Process.ref (p : Process) : ProcessRef :=
  { pid := p.pid, serial := p.serial, obstacles := p.obstacles }

/-- The existing processes, one for each pid, by pid. -/
abbrev ProcessTable := List Process

namespace ProcessTable

def find? (table : ProcessTable) (pid : Int) : Option Process := List.find? (·.pid == pid) table

def deref? (table : ProcessTable) (serial : Serial) : Option Process :=
  List.find? (·.serial == serial) table

/-- The table with a new process, which takes the place of any other with its pid. -/
def insert (table : ProcessTable) (p : Process) : ProcessTable :=
  match table with
  | [] => [p]
  | q :: rest =>
    if p.pid < q.pid then p :: q :: rest
    else if p.pid = q.pid then p :: rest
    else q :: insert rest p

def update (table : ProcessTable) (serial : Serial) (change : Process → Process) : ProcessTable :=
  table.map fun p => if p.serial = serial then change p else p

def remove (table : ProcessTable) (serial : Serial) : ProcessTable :=
  table.filter (·.serial != serial)

/-- The table after a process has died: it is gone, or stays as a zombie. -/
def bury (table : ProcessTable) (serial : Serial) : ProcessTable :=
  table.filterMap fun p =>
    if p.serial = serial ∧ !p.zombie then
      if p.leavesZombie then some { p with zombie := true } else none
    else some p

def childrenOf (table : ProcessTable) (pids : List Int) : ProcessTable :=
  table.filter fun p => pids.contains p.ppid

/-- The pids that descend from some pids in at most so many generations, those pids included. -/
def family (table : ProcessTable) : (generations : Nat) → List Int → List Int
  | 0, pids => pids
  | generations + 1, pids =>
    family table generations
      (pids ++ ((table.childrenOf pids).map (·.pid)).filter (!pids.contains ·))

/-- The processes that descend from a pid. There are no more generations than processes. -/
def descendants (table : ProcessTable) (pid : Int) : ProcessTable :=
  let pids := family table table.length [pid]
  table.filter fun p => p.pid != pid && pids.contains p.pid

end ProcessTable

end Overseer.World
