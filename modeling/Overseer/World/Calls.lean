import Overseer.World.Basic

/-!
# System calls

What a process can ask of the system and do to others: look at processes, at their descendants and
groups, and signal them. Each call can be refused. Attempts to signal are recorded before it shows
what comes of them.
-/

namespace Overseer.World

inductive GroupRefusal where
  | absent
  | failed (error : OsError)
  deriving DecidableEq, Repr

namespace System

def openProcess (w : System) (pid : Int) : Except Refusal ProcessRef :=
  match w.table.find? pid with
  | none => .error .absent
  | some p =>
    match p.obstacles.opening with
    | some refusal => .error refusal
    | none => .ok p.ref

def allProcesses (w : System) : List ProcessRef := w.table.map (·.ref)

def isRunning (w : System) (p : ProcessRef) : Bool := (w.table.deref? p.serial).isSome

def descendants (w : System) (p : ProcessRef) : Except Refusal (List ProcessRef) :=
  match p.obstacles.children with
  | some refusal => .error refusal
  | none => if w.isRunning p then .ok ((w.table.descendants p.pid).map (·.ref)) else .error .absent

def group (w : System) (pid : Int) : Except Refusal Int :=
  match w.table.find? pid with
  | none => .error .absent
  | some p =>
    match p.obstacles.group with
    | some refusal => .error refusal
    | none => .ok p.pgid

def isZombie (w : System) (p : ProcessRef) : Except Refusal Bool :=
  match p.obstacles.status with
  | some refusal => .error refusal
  | none =>
    match w.table.deref? p.serial with
    | none => .error .absent
    | some q => .ok q.zombie

def obstacleTo (p : ProcessRef) : Signal → Option Refusal
  | .term => p.obstacles.terminate
  | .kill => p.obstacles.kill

def record (w : System) (attempt : Attempt) : System :=
  { w with signals := w.signals.push (w.now, attempt) }

def signalProcess (w : System) (p : ProcessRef) (signal : Signal) :
    System × Except Refusal Unit :=
  let w := w.record (.single p.pid signal)
  match obstacleTo p signal with
  | some refusal => (w, .error refusal)
  | none =>
    if w.isRunning p then (w.deliver p.serial signal, .ok ()) else (w, .error .absent)

def groupMembers (w : System) (pgid : Int) : ProcessTable := w.table.filter (·.pgid == pgid)

def groupObstacle? (w : System) (pgid : Int) (signal : Signal) : Option OsError :=
  (w.groupErrors.lookup pgid).bind (·.against signal)

def signalGroup (w : System) (pgid : Int) (signal : Signal) : System × Except GroupRefusal Unit :=
  let w := w.record (.group pgid signal)
  match w.groupMembers pgid, w.groupObstacle? pgid signal with
  | [], _ => (w, .error .absent)
  | _, some error => (w, .error (.failed error))
  | members, none => (members.foldl (fun w p => w.deliver p.serial signal) w, .ok ())

end System

end Overseer.World
