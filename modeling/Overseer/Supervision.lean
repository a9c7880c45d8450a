import Overseer.Lines.Splitter
import Overseer.OutputLog
import Overseer.World.Scene

/-!
# Supervision

A supervised process and everything it prints. Two things go on for it: its output is read into a
log line by line (`readOutput`), and its end is watched for (`noticeExit`, `giveUpReading`,
`reportEnd`). When the shell has ended, reading may go on until the pipe ends too, but no longer
than a limit. Then the last line is recorded, the log is closed, and the process counts as exited:
all in one step.
-/

namespace Overseer

open Lines Number Octets Text World

inductive Reader where
  | reading
  | finished
  | failed (text : String)
  deriving DecidableEq, Repr

inductive Phase where
  | running
  /-- The shell has ended with a code; the pipe may still be read until the deadline. -/
  | draining (code : Int) (deadline : Option Instant)
  | completed (code : Int)
  deriving DecidableEq, Repr

structure Supervised where
  child : ChildId
  pid : Int
  command : String
  echo : Bool := false
  termLimit : Seconds
  killLimit : Seconds
  drainLimit : Seconds
  log : OutputLog := {}
  splitter : Splitter Decoder := { decoder := {} }
  reader : Reader := .reading
  phase : Phase := .running
  deriving DecidableEq, Repr

namespace Supervised

def note (text : String) : Note := { origin := .supervision, text }

def exitCode? (p : Supervised) : Option Int :=
  match p.phase with
  | .completed code => some code
  | _ => none

def isRunning (p : Supervised) : Bool := p.exitCode?.isNone

def describe (p : Supervised) : String :=
  let command := quoted p.command
  let status := match p.exitCode? with
    | some code => s!"exited({code})"
    | none => "running"
  s!"ManagedProcess(pid={p.pid}, status={status}, command={command})"

def echoNote (p : Supervised) (line : String) : Note :=
  let pid := p.pid
  { note s!"[{pid}] {line}" with level := .info }

def record (p : Supervised) (lines : Array String) : Supervised × List Note :=
  ({ p with log := p.log.appendAll lines }, if p.echo then lines.toList.map p.echoNote else [])

def readChunk (p : Supervised) (bytes : List UInt8) : Supervised × List Note :=
  match p.splitter.feed bytes with
  | (splitter, .ok lines) => { p with splitter }.record lines
  | (splitter, .error cause) => ({ p with splitter, reader := .failed cause.message }, [])

/-- Takes in some chunks of output, as long as they can be read. -/
def readChunks (p : Supervised) : List (List UInt8) → Supervised × List Note
  | [] => (p, [])
  | bytes :: rest =>
    match p.reader with
    | .reading =>
      let (p, notes) := p.readChunk bytes
      let (p, more) := readChunks p rest
      (p, notes ++ more)
    | _ => (p, [])

/-- The most bytes that one read takes. -/
def readSize : Nat := 4096

/-- What the reads of a pipe take, one after another. The first of them has been waiting for the
bytes to come; each later one fails at once where the pipe has failed by then. -/
def reads (state : PipeState) (bytes : List UInt8) : List (List UInt8) :=
  if bytes.length = 0 then []
  else
    bytes.take readSize ::
      if state.isFailed then [] else reads state (bytes.drop readSize)
termination_by bytes.length
decreasing_by
  rw [List.length_drop]
  exact Nat.sub_lt (Nat.pos_of_ne_zero ‹_›) (by decide)

def readerAfter (p : Supervised) (pipe : Pipe) : Reader :=
  match p.reader, pipe.state with
  | .reading, .ended => .finished
  | .reading, .failed error => .failed error.message
  | reader, _ => reader

def readOutput (p : Supervised) (s : Scene) : Scene × Supervised :=
  match p.reader with
  | .reading =>
    match s.system.pipe? p.child with
    | none => (s, { p with reader := .finished })
    | some pipe =>
      let (p, notes) := p.readChunks (reads pipe.state pipe.unread.flatten)
      ({ s with system := s.system.emptyPipe p.child }.report notes,
        { p with reader := p.readerAfter pipe })
  | _ => (s, p)

def recordRest (p : Supervised) : Supervised × List Note :=
  match p.splitter.flush with
  | (splitter, .ok lines) => { p with splitter }.record lines
  | (splitter, .error _) => ({ p with splitter }, [])

def completedNote (p : Supervised) (code : Int) : Note :=
  let lines := p.log.lines.size
  note s!"Subprocess completed pid={p.pid} returncode={code} lines={lines}"

def complete (p : Supervised) (code : Int) : Supervised × List Note :=
  let (p, lineNotes) := p.recordRest
  let (log, closeNotes) := p.log.close
  let p := { p with log, phase := .completed code }
  (p, lineNotes ++ closeNotes ++ [p.completedNote code])

def noticeExit (p : Supervised) (s : Scene) : Scene × Supervised :=
  match p.phase, s.system.exitCode? p.child with
  | .running, some code =>
    (s, { p with phase := .draining code (p.drainLimit.deadline s.now) })
  | _, _ => (s, p)

def giveUpNote (p : Supervised) : Note :=
  note s!"Output still open after exit pid={p.pid}, closing"

def giveUpReading (p : Supervised) (s : Scene) : Scene × Supervised :=
  match p.phase, p.reader with
  | .draining _ deadline, .reading =>
    if Instant.reached s.now deadline then
      (s.report [p.giveUpNote], { p with reader := .finished })
    else (s, p)
  | _, _ => (s, p)

def failedNote (p : Supervised) (text : String) : Note :=
  { note s!"Error reading output pid={p.pid}: {text}" with level := .warning }

def reportEnd (p : Supervised) (s : Scene) : Scene × Supervised :=
  match p.phase, p.reader with
  | .draining code _, .finished =>
    let (p, notes) := p.complete code
    (s.report notes, p)
  | .draining code _, .failed text =>
    let (completed, notes) := p.complete code
    (s.report (p.failedNote text :: notes), completed)
  | _, _ => (s, p)

def wake (p : Supervised) : Option Instant :=
  match p.phase with
  | .draining _ deadline => deadline
  | _ => none

def startedNote (pid : Int) (launch : Launch) : Note :=
  let command := quoted launch.command
  let cwd := launch.cwd
  note s!"Started subprocess pid={pid} command={command} cwd={cwd}"

/-- The reader of a process that has just been started: where its pipe has failed by then, the first
read fails and takes nothing. -/
def firstReader (w : System) (child : ChildId) : Reader :=
  match w.pipe? child with
  | some { state := .failed error, .. } => .failed error.message
  | _ => .reading

def spawn (settings : Settings) (launch : Launch) (s : Scene) :
    Scene × Except Failure Supervised :=
  if s.system.dirs.contains launch.cwd then
    match s.system.spawn launch with
    | (system, .error reason) =>
      ({ s with system }, .error (.spawn launch.command launch.cwd reason))
    | (system, .ok child) =>
      let pid := system.pidOf child
      let p : Supervised :=
        { child, pid, command := launch.command, echo := settings.echoOutput
          termLimit := settings.termTimeout, killLimit := settings.killTimeout
          drainLimit := settings.drainTimeout, reader := firstReader system child }
      ({ s with system }.report [startedNote pid launch], .ok p)
  else (s, .error (.spawn launch.command launch.cwd "working directory does not exist"))

end Supervised

end Overseer
