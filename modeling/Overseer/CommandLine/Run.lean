import Overseer.CommandLine.Arguments
import Overseer.LineWait
import Overseer.Stopping
import Overseer.Timeline

/-!
# Runs of the command line

Without a line to wait for, the command runs to its end, its output is printed, and its exit code
is that of the run; a command that takes too long is stopped. With a line to wait for, the command
is stopped as soon as the line has come, or cannot come any more, and the named groups of the match
are printed.
-/

namespace Overseer.CommandLine

open Number Text Pattern

inductive Verdict where
  | tooLong (limit : Seconds)
  | missed
  | matched (groups : List (String × Option String))
  | broken (failure : Failure)
  deriving DecidableEq, Repr

inductive Stage where
  | toEnd (limit : Seconds) (deadline : Option Instant)
  | forLine (wait : LineWait)
  | stopping (stopping : Stopping) (verdict : Verdict)
  deriving Repr

structure Run where
  process : ProcessId
  command : String
  stage : Stage
  deriving Repr

structure Ended where
  printed : String := ""
  code : Except Failure Int
  journal : Journal

def entryNote (text : String) : Note := { level := .error, origin := .entry, text }

def tooLongNote (command : String) (limit : Seconds) : Note :=
  let command := quoted command
  let limit := limit.text
  entryNote s!"Running {command} took too long ({limit}s)"

def groupLine : String × Option String → String
  | (name, value) => name ++ "=" ++ value.getD "None" ++ "\n"

def Ended.now (f : Fleet) (printed : String) (code : Except Failure Int) : Ended :=
  { printed, code, journal := f.scene.journal }

namespace Run

abbrev Going := Fleet × Progress Run Ended

def conclude (r : Run) (f : Fleet) : Verdict → Fleet × Ended
  | .tooLong limit =>
    let f := f.report [tooLongNote r.command limit]
    (f, .now f (f.output r.process ++ "\n") (.ok 1))
  | .missed => (f, .now f "" (.ok 1))
  | .matched groups => (f, .now f (String.join (groups.map groupLine)) (.ok 0))
  | .broken failure => (f, .now f "" (.error failure))

def afterStopping (r : Run) (verdict : Verdict) : Fleet × Progress Stopping Stopping.Result → Going
  | (f, .pending stopping) => (f, .pending { r with stage := .stopping stopping verdict })
  | (f, .done (.error failure)) => (f, .done (.now f "" (.error failure)))
  | (f, .done (.ok ())) =>
    let (f, ended) := r.conclude f verdict
    (f, .done ended)

def stop (r : Run) (verdict : Verdict) (f : Fleet) : Going :=
  r.afterStopping verdict (Stopping.start r.process f)

/-- Goes on from what the wait for a line has come to. A failure of the wait is reported before the
command is stopped. -/
def afterLine (r : Run) (f : Fleet) : Progress LineWait LineWait.Result → Going
  | .pending w => (f, .pending { r with stage := .forLine w })
  | .done (.ok found) => r.stop (.matched found.namedGroups) f
  | .done (.error failure) => r.stop .missed (f.report [entryNote failure.message])

def pollLine (r : Run) (w : LineWait) (f : Fleet) : Going :=
  let (log, notes, progress) := w.poll f.now (f.log r.process)
  r.afterLine ((f.setLog r.process log).report notes) progress

def pollEnd (r : Run) (limit : Seconds) (deadline : Option Instant) (f : Fleet) : Going :=
  match f.exitCode? r.process with
  | some code => (f, .done (.now f (f.output r.process ++ "\n") (.ok code)))
  | none =>
    if Instant.reached f.now deadline then r.stop (.tooLong limit) f else (f, .pending r)

def poll (r : Run) (f : Fleet) : Going :=
  match r.stage with
  | .toEnd limit deadline => r.pollEnd limit deadline f
  | .forLine w => r.pollLine w f
  | .stopping stopping verdict => r.afterStopping verdict (stopping.poll f)

def startStage (settings : Settings) (arguments : Arguments) (process : ProcessId) (f : Fleet) :
    Going :=
  match arguments.awaited with
  | none =>
    let limit := arguments.timeout.getD settings.runTimeout
    let deadline := limit.deadline f.now
    poll { process, command := arguments.command, stage := .toEnd limit deadline } f
  | some text =>
    let stopped (verdict : Verdict) : Going :=
      stop
        { process, command := arguments.command
          stage := .stopping { process, tree := none } verdict }
        verdict f
    match PatternText.compile { text } with
    | .error failure => stopped (.broken failure)
    | .ok pattern =>
      let limit := arguments.timeout.getD settings.readTimeout
      let (log, w) := LineWait.start pattern limit f.now (f.log process)
      poll { process, command := arguments.command, stage := .forLine w } (f.setLog process log)

def start (settings : Settings) (arguments : Arguments) (f : Fleet) : Going :=
  let request : Request :=
    { command := arguments.command, cwd := arguments.cwd, debug := arguments.debug }
  match f.start settings request with
  | (f, .error failure) => (f, .done (.now f "" (.error failure)))
  | (f, .ok process) => startStage settings arguments process f

def wake (r : Run) : Option Instant :=
  match r.stage with
  | .toEnd _ deadline => deadline
  | .forLine w => w.deadline
  | .stopping stopping _ => stopping.wake

def machinery (settings : Settings) : Machinery Fleet Arguments Run Ended where
  now := Fleet.now
  nextChange := Fleet.nextChange
  advance := Fleet.advance
  deliver := Fleet.readOutputs
  complete := Fleet.watchEnds
  start _ := start settings
  poll := poll
  wake := wake
  cancel _ f := f

end Run

structure Report where
  /-- The exit code, or the failure that ended the program; none if it never ends. -/
  code : Option (Except Failure Int)
  output : String := ""
  usage : Option UsageError := none
  entries : List Entry := []
  fleet : Fleet

def entryLine (stamp : Instant → String) (entry : Entry) : String :=
  let time := stamp entry.time
  let level := entry.note.level.name
  let origin := entry.note.origin.name
  s!"{time} [{level}] e2e_harness.{origin}: {entry.note.text}\n"

def Report.errorText (r : Report) (stamp : Instant → String) : String :=
  match r.usage with
  | some error => "error: " ++ error.message ++ "\n"
  | none => String.join (r.entries.map (entryLine stamp))

def reported (least : Level) (j : Journal) : List Entry :=
  j.toList.filter fun e => least.rank ≤ e.note.level.rank

/-- The report of a run that has ended. A failure of the library is one more entry, and gives a code
of its own. -/
def settle (level : Level) (ended : Ended) (fleet : Fleet) : Report :=
  let report : Report :=
    { code := some ended.code, output := ended.printed
      entries := reported level ended.journal, fleet }
  match ended.code with
  | .ok _ => report
  | .error failure =>
    if failure.isOwn then
      let journal := ended.journal.add fleet.now [entryNote failure.message]
      { report with code := some (.ok 2), entries := reported level journal }
    else report

/-- The whole program: it reads its settings, understands its arguments, and runs the command. -/
def run (arguments : List String) (scene : World.Scene) : Report :=
  let settings := Settings.load scene.system.env
  let fleet : Fleet := { scene }
  match parse arguments with
  | .error error => { code := some (.ok 2), usage := some error, fleet }
  | .ok .help => { code := some (.ok 0), fleet }
  | .ok (.run arguments) =>
    let (fleet, transcript) :=
      Timeline.runScript (Run.machinery settings) fleet [.act arguments]
    match transcript.outcomes with
    | [⟨_, .result ended⟩] => settle settings.level ended fleet
    | _ => { code := none, entries := reported settings.level fleet.scene.journal, fleet }

end Overseer.CommandLine
