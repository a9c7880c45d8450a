import Overseer.BoundedRun
import Overseer.LineWait
import Overseer.Teardown
import Overseer.Timeline

/-!
# Sessions

What a caller does with supervised processes: it starts commands and gets handles to them, waits for
lines and for the end, stops processes, and tracks them in the registry. A session is a state with
named handles; a command on it begins an activity, and activities go on side by side.
-/

namespace Overseer

open Overseer.Tree Number Pattern Text World

structure Handle where
  process : ProcessId
  command : String
  readLimit : Seconds
  deriving DecidableEq, Repr

/-- The line that says where a server can be reached. -/
def readyPattern : PatternText := { text := "Ready on (?P<url>https?://.*)" }

def reloadPattern : PatternText :=
  { text := "Detected changes, restarted server|Reloading local server\\.\\.\\." }

structure Session where
  fleet : Fleet := {}
  settings : Settings := {}
  termLimit : Seconds := Termination.usualTermLimit
  killLimit : Seconds := Termination.usualKillLimit
  /-- The directory of a scope. In a scope, commands are always tracked, and start in its directory
  unless the caller asks for another one. -/
  home : Option String := none
  handles : List (String × Handle) := []
  deriving Repr

namespace Session

inductive LineReport where
  | whole
  | groups
  | nothing
  deriving DecidableEq, Repr

inductive EndReport where
  | output
  | checkedOutput (command : String)
  | code
  deriving DecidableEq, Repr

inductive Command where
  | start (name : String) (request : Request) (track : Bool)
  | run (request : Request) (limit : Option Seconds) (check track : Bool)
  | wrap (name source : String) (command : Option String) (readLimit : Option Seconds)
  | readLine (handle : String) (pattern : PatternText) (limit : Option Seconds)
  | attach (handle : String) (pattern : PatternText) (limit : Option Seconds)
  | ready (handle : String) (limit : Option Seconds)
  | reload (handle : String) (limit : Option Seconds)
  | finalOutput (handle : String)
  | complete (handle : String)
  | wait (handle : String)
  | kill (handle : String)
  | output (handle : String)
  | state (handle : String)
  | register (handle : String)
  | unregister (handle : String)
  | entries
  | teardown
  | leave
  | drop (handle : String)
  | killTree (pid : Int) (termLimit killLimit : Option Seconds)
  | alive
  deriving DecidableEq, Repr

structure StateReport where
  code : Option Int
  running : Bool
  closed : Bool
  lines : Nat
  subscribers : Nat
  handle : String
  process : String
  deriving DecidableEq, Repr

inductive Answer where
  | nothing
  | started (pid : Int) (command : String)
  | text (text : String)
  | code (code : Int)
  | flag (flag : Bool)
  | pids (pids : List Int)
  | left (pids : List Int)
  | descriptions (lines : List String)
  | processes (processes : List (Int × Bool))
  | found (found : Match)
  | groups (groups : List (String × Option String))
  | state (report : StateReport)
  deriving Repr

abbrev Result := Except Failure Answer

inductive Activity where
  | line (process : ProcessId) (report : LineReport) (wait : LineWait)
  | ending (process : ProcessId) (report : EndReport)
  | tree (tree : Termination)
  | stopping (stopping : Stopping)
  | run (run : BoundedRun)
  | teardown (leaving : Bool) (teardown : Teardown)
  deriving Repr

abbrev Going := Session × Progress Activity Result

def Activity.holds (process : ProcessId) : Activity → Bool
  | .line p _ _ => p == process
  | .ending p _ => p == process
  | .tree _ => false
  | .stopping s => s.process == process
  | .run r => r.process == process
  | .teardown _ t => t.holds process

def holds (s : Session) (peers : List Activity) (process : ProcessId) : Bool :=
  s.handles.any (·.2.process == process) || peers.any (·.holds process)

def now (s : Session) : Instant := s.fleet.now

def handle? (s : Session) (name : String) : Option Handle := s.handles.lookup name

def release (s : Session) (name : String) : Session :=
  { s with handles := s.handles.filter (·.1 != name) }

def hold (s : Session) (name : String) (handle : Handle) : Session :=
  let s := s.release name
  { s with handles := (name, handle) :: s.handles }

def lineAnswer (report : LineReport) (found : Match) : Answer :=
  match report with
  | .whole => .found found
  | .groups => .groups found.namedGroups
  | .nothing => .nothing

def pollLine (process : ProcessId) (report : LineReport) (w : LineWait) (s : Session) : Going :=
  let (log, notes, progress) := w.poll s.now (s.fleet.log process)
  ({ s with fleet := (s.fleet.setLog process log).report notes },
    progress.map (.line process report) (·.map (lineAnswer report)))

def startLine (process : ProcessId) (report : LineReport) (pattern : PatternText)
    (limit : Seconds) (s : Session) : Going :=
  match pattern.compile with
  | .error failure => (s, .done (.error failure))
  | .ok pattern =>
    let (log, w) := LineWait.start pattern limit s.now (s.fleet.log process)
    pollLine process report w { s with fleet := s.fleet.setLog process log }

def endAnswer (process : ProcessId) (report : EndReport) (code : Int) (f : Fleet) :
    Fleet × Result :=
  match report with
  | .output => (f, .ok (.text (f.output process)))
  | .code => (f, .ok (.code code))
  | .checkedOutput command =>
    let (f, result) := requireSuccess command code (f.output process) f
    (f, result.map .text)

def pollEnd (process : ProcessId) (report : EndReport) (s : Session) : Going :=
  match s.fleet.exitCode? process with
  | none => (s, .pending (.ending process report))
  | some code =>
    let (fleet, result) := endAnswer process report code s.fleet
    ({ s with fleet }, .done result)

def goOn {α : Type} (s : Session) (activity : α → Activity) :
    Fleet × Progress α (Except Failure Unit) → Going
  | (fleet, progress) =>
    ({ s with fleet }, progress.map activity (·.map fun _ => .nothing))

def goOnRun (s : Session) : Fleet × Progress BoundedRun BoundedRun.Result → Going
  | (fleet, progress) => ({ s with fleet }, progress.map .run (·.map .text))

def goOnTeardown (s : Session) (leaving : Bool) : Fleet × Progress Teardown Unit → Going
  | (fleet, progress) =>
    let pids := fleet.registry.pids
    ({ s with fleet },
      progress.map (.teardown leaving) fun _ => .ok (if leaving then .left pids else .pids pids))

def pollTree (tree : Termination) (s : Session) : Going :=
  let (scene, progress) := tree.poll s.fleet.scene
  s.goOn .tree ({ s.fleet with scene }, progress)

def poll (activity : Activity) (s : Session) : Going :=
  match activity with
  | .line process report w => pollLine process report w s
  | .ending process report => pollEnd process report s
  | .tree tree => pollTree tree s
  | .stopping stopping => s.goOn .stopping (stopping.poll s.fleet)
  | .run run => s.goOnRun (run.poll s.fleet)
  | .teardown leaving teardown => s.goOnTeardown leaving (teardown.poll s.fleet)

def wake : Activity → Option Instant
  | .line _ _ w => w.deadline
  | .ending _ _ => none
  | .tree tree => tree.wake
  | .stopping stopping => stopping.wake
  | .run run => run.wake
  | .teardown _ teardown => teardown.wake

/-- Cancels an activity. A wait gives up its subscription; what else has been done stays done. -/
def cancel (activity : Activity) (s : Session) : Session :=
  match activity with
  | .line process _ w =>
    { s with fleet := s.fleet.setLog process (w.stop (s.fleet.log process)) }
  | _ => s

def placed (s : Session) (request : Request) : Request :=
  { request with cwd := request.cwd <|> s.home }

def startCommand (s : Session) (peers : List Activity) (name : String) (request : Request)
    (track : Bool) : Session × Result :=
  match s.fleet.startTracked s.settings (s.holds peers) (s.placed request)
      (track || s.home.isSome) with
  | (fleet, .error failure) => ({ s with fleet }, .error failure)
  | (fleet, .ok process) =>
    let pid := ((fleet.process? process).map (·.pid)).getD 0
    let handle : Handle :=
      { process, command := request.command, readLimit := s.settings.readTimeout }
    ({ s with fleet }.hold name handle, .ok (.started pid request.command))

def wrap (s : Session) (name : String) (source : Handle) (command : Option String)
    (readLimit : Option Seconds) : Session × Result :=
  let spawned := ((s.fleet.process? source.process).map (·.command)).getD ""
  let command := if command.getD "" = "" then spawned else command.getD ""
  let handle : Handle :=
    { process := source.process, command, readLimit := readLimit.getD LineWait.usualLimit }
  (s.hold name handle, .ok (.text command))

def describe (h : Handle) (p : Supervised) : String :=
  let command := quoted h.command
  s!"ProcessHarness(pid={p.pid}, command={command})"

def stateOf (s : Session) (h : Handle) : Result :=
  match s.fleet.process? h.process with
  | none => .error (.unknownName h.command)
  | some p =>
    .ok (.state
      { code := p.exitCode?, running := p.isRunning, closed := p.log.closed
        lines := p.log.lines.size, subscribers := p.log.subscribers.length
        handle := describe h p, process := p.describe })

def answer (s : Session) (fleet : Fleet) (result : Answer) : Going :=
  ({ s with fleet }, .done (.ok result))

def withHandle (s : Session) (name : String) (act : Handle → Going) : Going :=
  match s.handle? name with
  | some handle => act handle
  | none => (s, .done (.error (.unknownName name)))

def start (peers : List Activity) (command : Command) (s : Session) : Going :=
  match command with
  | .start name request track =>
    let (s, result) := s.startCommand peers name request track
    (s, .done result)
  | .run request limit check track =>
    s.goOnRun
      (BoundedRun.start s.settings (s.holds peers) request limit check track s.fleet)
  | .wrap name source command readLimit =>
    s.withHandle source fun h =>
      let (s, result) := s.wrap name h command readLimit
      (s, .done result)
  | .readLine name pattern limit =>
    s.withHandle name fun h =>
      startLine h.process .whole pattern (limit.getD h.readLimit) s
  | .attach name pattern limit =>
    s.withHandle name fun h =>
      startLine h.process .groups pattern (limit.getD h.readLimit) s
  | .ready name limit =>
    s.withHandle name fun h =>
      startLine h.process .groups readyPattern (limit.getD s.settings.readyTimeout) s
  | .reload name limit =>
    s.withHandle name fun h =>
      startLine h.process .nothing reloadPattern (limit.getD h.readLimit) s
  | .finalOutput name => s.withHandle name fun h => pollEnd h.process .output s
  | .complete name => s.withHandle name fun h => pollEnd h.process (.checkedOutput h.command) s
  | .wait name => s.withHandle name fun h => pollEnd h.process .code s
  | .kill name =>
    s.withHandle name fun h => s.goOn .stopping (Stopping.start h.process s.fleet)
  | .output name =>
    s.withHandle name fun h => s.answer s.fleet (.text (s.fleet.output h.process))
  | .state name => s.withHandle name fun h => (s, .done (s.stateOf h))
  | .register name =>
    s.withHandle name fun h =>
      let fleet := s.fleet.register (s.fleet.standing (s.holds peers)) h.process
      s.answer fleet (.pids fleet.registry.pids)
  | .unregister name =>
    s.withHandle name fun h =>
      let (fleet, tracked) :=
        s.fleet.unregister (s.fleet.standing (s.holds peers)) h.process
      s.answer fleet (.flag tracked)
  | .entries =>
    let standing := s.fleet.standing (s.holds peers)
    s.answer s.fleet (.descriptions (s.fleet.registry.entries.map (·.describe standing)))
  | .teardown => s.goOnTeardown false (Teardown.start s.termLimit s.killLimit s.fleet)
  | .leave => s.goOnTeardown true (Teardown.start s.termLimit s.killLimit s.fleet)
  | .drop name =>
    s.withHandle name fun _ => (s.release name, .done (.ok .nothing))
  | .killTree pid termLimit killLimit =>
    pollTree
      { pid, termLimit := termLimit.getD Termination.usualTermLimit
        killLimit := killLimit.getD Termination.usualKillLimit }
      s
  | .alive =>
    s.answer s.fleet (.processes (s.fleet.scene.system.table.map fun p => (p.pid, p.zombie)))

def machinery : Machinery Session Command Activity Result where
  now := now
  nextChange s := s.fleet.nextChange
  advance s t := { s with fleet := s.fleet.advance t }
  deliver s := { s with fleet := s.fleet.readOutputs }
  complete s := { s with fleet := s.fleet.watchEnds }
  start := start
  poll := poll
  wake := wake
  cancel := cancel

/-- A session at its beginning. Settings that are not given are read from the environment. -/
def opening (scene : Scene) (settings : Option Settings) (termLimit killLimit : Option Seconds) :
    Session :=
  { fleet := { scene }
    settings := settings.getD (.load scene.system.env)
    termLimit := termLimit.getD Termination.usualTermLimit
    killLimit := killLimit.getD Termination.usualKillLimit }

/-- A session of a scope at its beginning: its teardown has the limits of the settings. -/
def openingScope (scene : Scene) (settings : Option Settings) (home : String) : Session :=
  let settings := settings.getD (.load scene.system.env)
  { fleet := { scene }, settings, termLimit := settings.termTimeout
    killLimit := settings.killTimeout, home := some home }

def scriptOf (s : Session) (script : List (Step Command)) : List (Step Command) :=
  if s.home.isSome then script ++ [.act .leave] else script

def run (s : Session) (script : List (Step Command)) : Session × Transcript Result :=
  Timeline.runScript machinery s (s.scriptOf script)

end Session

end Overseer
