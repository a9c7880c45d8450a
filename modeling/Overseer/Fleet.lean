import Overseer.Registry
import Overseer.Supervision

/-!
# Fleets

All processes under supervision in one scene, and the registry that tracks some of them. A process
keeps its number in the fleet for good, whatever becomes of it.
-/

namespace Overseer

open World

structure Fleet where
  scene : Scene := {}
  processes : Array Supervised := #[]
  registry : Registry := {}
  deriving Repr

namespace Fleet

def now (f : Fleet) : Instant := f.scene.now

def report (f : Fleet) (notes : List Note) : Fleet := { f with scene := f.scene.report notes }

def process? (f : Fleet) (id : ProcessId) : Option Supervised := f.processes[id]?

def exitCode? (f : Fleet) (id : ProcessId) : Option Int :=
  (f.process? id).bind Supervised.exitCode?

def isRunning (f : Fleet) (id : ProcessId) : Bool := (f.process? id).any Supervised.isRunning

def output (f : Fleet) (id : ProcessId) : String :=
  ((f.process? id).map (·.log.snapshot)).getD ""

def log (f : Fleet) (id : ProcessId) : OutputLog := ((f.process? id).map (·.log)).getD {}

def setLog (f : Fleet) (id : ProcessId) (log : OutputLog) : Fleet :=
  { f with processes := f.processes.modify id ({ · with log }) }

def stepProcess (step : Supervised → Scene → Scene × Supervised) (f : Fleet) (id : ProcessId) :
    Fleet :=
  match f.processes[id]? with
  | none => f
  | some p =>
    let (scene, p) := step p f.scene
    { f with scene, processes := f.processes.setIfInBounds id p }

def stepEach (f : Fleet) (step : Supervised → Scene → Scene × Supervised)
    (ids : List ProcessId) : Fleet :=
  ids.foldl (stepProcess step) f

def readOutputs (f : Fleet) : Fleet :=
  f.stepEach Supervised.readOutput (List.range f.processes.size)

def ended (f : Fleet) : List ProcessId :=
  f.scene.system.endings.toList.filterMap fun child => f.processes.findIdx? (·.child == child)

/-- Watches for the end of every process. Each step is taken with all processes whose shells have
ended, in the order in which they did, before the next step. -/
def watchEnds (f : Fleet) : Fleet :=
  let ids := f.ended
  ((f.stepEach Supervised.noticeExit ids).stepEach Supervised.giveUpReading ids).stepEach
    Supervised.reportEnd ids

def advance (f : Fleet) (t : Instant) : Fleet := { f with scene := f.scene.advance t }

def nextChange (f : Fleet) : Option Instant :=
  f.processes.foldl (fun moment p => Instant.earlier moment p.wake) f.scene.system.nextChange

def entryOf (p : Supervised) (id : ProcessId) : Tracked :=
  { pid := p.pid, command := p.command, process := id }

def register (f : Fleet) (standing : ProcessId → Standing) (id : ProcessId) : Fleet :=
  match f.process? id with
  | none => f
  | some p =>
    let (registry, notes) := f.registry.register standing (entryOf p id)
    { f with registry }.report notes

def unregister (f : Fleet) (standing : ProcessId → Standing) (id : ProcessId) : Fleet × Bool :=
  match f.process? id with
  | none => (f, false)
  | some p =>
    let (registry, tracked, notes) := f.registry.unregister standing p.pid id
    ({ f with registry }.report notes, tracked)

/-- What has become of a process: one whose end has been reported is released as soon as nobody
holds it. -/
def standing (f : Fleet) (held : ProcessId → Bool) (id : ProcessId) : Standing :=
  if f.isRunning id then .running else if held id then .exited else .released

/-- Starts a process. Nothing is tried where the request cannot be met. -/
def start (f : Fleet) (settings : Settings) (request : Request) :
    Fleet × Except Failure ProcessId :=
  let system := f.scene.system
  match request.launch settings system.currentDir system.env system.windows with
  | .error failure => (f, .error failure)
  | .ok launch =>
    match Supervised.spawn settings launch f.scene with
    | (scene, .error failure) => ({ f with scene }, .error failure)
    | (scene, .ok p) =>
      ({ f with scene, processes := f.processes.push p }, .ok f.processes.size)

def startTracked (f : Fleet) (settings : Settings) (held : ProcessId → Bool) (request : Request)
    (track : Bool) : Fleet × Except Failure ProcessId :=
  match f.start settings request with
  | (f, .error failure) => (f, .error failure)
  | (f, .ok id) => (if track then f.register (f.standing held) id else f, .ok id)

end Fleet

end Overseer
