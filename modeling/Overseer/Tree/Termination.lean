import Overseer.Progress
import Overseer.Tree.Members

/-!
# Ending a process tree

First every member is asked to end; those that are still there after a limit are killed; those that
are still there after a second limit are reported. Between the steps the members are looked at
every 50 milliseconds, which is all that is known of them: when a limit runs out, the members that
were alive at the last look count as alive.
-/

namespace Overseer.Tree

open World Number Text

def lookInterval : Nat := 50 * Instant.perMilli

inductive Stage where
  | asked
  | killed
  deriving DecidableEq, Repr

/-- A wait for members to die: those alive at the last look, and what comes next when. -/
structure Vigil where
  stage : Stage
  alive : List ProcessRef
  nextLook : Instant
  deadline : Option Instant
  deriving DecidableEq, Repr

structure Termination where
  pid : Int
  termLimit : Seconds
  killLimit : Seconds
  vigil : Option Vigil := none
  deriving DecidableEq, Repr

def pidList (ps : List ProcessRef) : String := bracketed (ps.map (·.pid))

def sortedPidList (ps : List ProcessRef) : String :=
  bracketed ((ps.map (·.pid)).mergeSort (· ≤ ·))

def noSuchProcess : Int := 3

/-- Signals a group and reports what comes of it. That the group is empty is no matter. -/
def signalGroup (s : Scene) (pgid : Int) (signal : Signal) : Scene :=
  let (system, outcome) := s.system.signalGroup pgid signal
  let s := { s with system }
  let name := signal.name
  match outcome with
  | .ok () => s.report [note s!"Sent {name} to process group pgid={pgid}"]
  | .error .absent => s
  | .error (.failed error) =>
    if error.number = noSuchProcess then s
    else
      let why := error.message
      s.report [note s!"killpg({pgid}, {name}) failed: {why}"]

/-- Signals one process and reports a refusal. That the process is gone is no matter. -/
def signalOne (signal : Signal) (s : Scene) (p : ProcessRef) : Scene :=
  let (system, outcome) := s.system.signalProcess p signal
  let s := { s with system }
  match outcome with
  | .ok () | .error .absent => s
  | .error .denied => s.report [note s!"Signalling pid={p.pid} failed: (pid={p.pid})"]

def signalAll (s : Scene) (pid : Int) (ps : List ProcessRef) (signal : Signal) : Scene :=
  let s := if s.system.windows then s else signalGroup s pid signal
  ps.foldl (signalOne signal) s

namespace Termination

def usualTermLimit : Seconds := .ofDecimal 2 0

def usualKillLimit : Seconds := .ofDecimal 1 0

abbrev Result := Except Failure Unit

def giveUp (t : Termination) (alive : List ProcessRef) (s : Scene) :
    Scene × Progress Termination Result :=
  let pids := pidList alive
  let count := alive.length
  let warning : Note :=
    { note s!"Processes did not exit after kill pid={t.pid}: {pids}" with level := .warning }
  (s.report [warning],
    .done (.error (.cleanup t.pid s!"{count} process(es) still alive after kill")))

def lookAtKilled (t : Termination) (alive : List ProcessRef) (deadline : Option Instant)
    (s : Scene) : Scene × Progress Termination Result :=
  match survivors s.system alive with
  | .error failure => (s, .done (.error failure))
  | .ok [] => (s, .done (.ok ()))
  | .ok alive =>
    if Instant.reached s.now deadline then t.giveUp alive s
    else
      (s, .pending
        { t with vigil := some ⟨.killed, alive, s.now + lookInterval, deadline⟩ })

def kill (t : Termination) (alive : List ProcessRef) (s : Scene) :
    Scene × Progress Termination Result :=
  let pids := pidList alive
  let s := s.report [note s!"Force killing process tree pid={t.pid} survivors={pids}"]
  let s := signalAll s t.pid alive .kill
  t.lookAtKilled alive (t.killLimit.deadline s.now) s

def lookAtAsked (t : Termination) (alive : List ProcessRef) (deadline : Option Instant)
    (s : Scene) : Scene × Progress Termination Result :=
  match survivors s.system alive with
  | .error failure => (s, .done (.error failure))
  | .ok [] =>
    (s.report [note s!"Process tree terminated gracefully pid={t.pid}"], .done (.ok ()))
  | .ok alive =>
    if Instant.reached s.now deadline then t.kill alive s
    else
      (s, .pending
        { t with vigil := some ⟨.asked, alive, s.now + lookInterval, deadline⟩ })

/-- Finds out the members and asks them to end. The members are looked up on another thread, for
which one has to wait; here that takes no time, and nothing else happens in between. -/
def start (t : Termination) (s : Scene) : Scene × Progress Termination Result :=
  let (found, notes) := members s.system t.pid
  let s := s.report notes
  match found with
  | .error failure => (s, .done (.error failure))
  | .ok [] => (s.report [note s!"No live processes in tree pid={t.pid}"], .done (.ok ()))
  | .ok found =>
    let pids := sortedPidList found
    let s := s.report [note s!"Terminating process tree pid={t.pid} members={pids}"]
    let s := signalAll s t.pid found .term
    t.lookAtAsked found (t.termLimit.deadline s.now) s

/-- Goes on with the wait under way. A limit that has run out comes before a look. -/
def keepVigil (t : Termination) (v : Vigil) (s : Scene) : Scene × Progress Termination Result :=
  if Instant.reached s.now v.deadline then
    match v.stage with
    | .asked => t.kill v.alive s
    | .killed => t.giveUp v.alive s
  else if v.nextLook ≤ s.now then
    match v.stage with
    | .asked => t.lookAtAsked v.alive v.deadline s
    | .killed => t.lookAtKilled v.alive v.deadline s
  else (s, .pending t)

def poll (t : Termination) (s : Scene) : Scene × Progress Termination Result :=
  match t.vigil with
  | none => t.start s
  | some v => t.keepVigil v s

def wake (t : Termination) : Option Instant :=
  match t.vigil with
  | none => none
  | some v => Instant.earlier (some v.nextLook) v.deadline

end Termination

end Overseer.Tree
