import Overseer.Stopping

/-!
# Bounded runs

A bounded run starts a command and waits for its end. The result is the complete output; a code
other than zero is a failure if the caller wants it checked. A command that takes longer than the
limit is stopped, taken off the registry, and the run fails with the output up to then.
-/

namespace Overseer

open Number Text

structure BoundedRun where
  process : ProcessId
  command : String
  limit : Seconds
  deadline : Option Instant
  check : Bool
  tracked : Bool
  /-- The stopping of the process, once the limit has run out. -/
  stopping : Option Stopping := none
  deriving DecidableEq, Repr

def failedNote (command : String) (code : Int) : Note :=
  let command := quoted command
  { origin := .handle, text := s!"Command failed command={command} returncode={code}" }

def requireSuccess (command : String) (code : Int) (output : String) (f : Fleet) :
    Fleet × Except Failure String :=
  if code = 0 then (f, .ok output)
  else (f.report [failedNote command code], .error (.exitStatus command code output))

namespace BoundedRun

abbrev Result := Except Failure String

def killNote (r : BoundedRun) (pid : Int) : Note :=
  let command := quoted r.command
  let limit := r.limit.text
  { origin := .commands, text := s!"Killing {command} after {limit}s timeout pid={pid}" }

def tooLong (r : BoundedRun) (output : String) : Failure :=
  let command := quoted r.command
  let limit := r.limit.text
  .timeout s!"Running {command} took too long ({limit}s)." output r.limit none

def giveUp (r : BoundedRun) (f : Fleet) : Fleet × Result :=
  let f := if r.tracked then (f.unregister (f.standing (· == r.process)) r.process).1 else f
  (f, .error (r.tooLong (f.output r.process)))

def afterStopping (r : BoundedRun) :
    Fleet × Progress Stopping Stopping.Result → Fleet × Progress BoundedRun Result
  | (f, .pending stopping) => (f, .pending { r with stopping := some stopping })
  | (f, .done (.error failure)) => (f, .done (.error failure))
  | (f, .done (.ok ())) =>
    let (f, result) := r.giveUp f
    (f, .done result)

def finish (r : BoundedRun) (code : Int) (f : Fleet) : Fleet × Result :=
  let output := f.output r.process
  if r.check then requireSuccess r.command code output f else (f, .ok output)

/-- Goes as far as can be at this moment. An end that has been reported counts before the limit. -/
def poll (r : BoundedRun) (f : Fleet) : Fleet × Progress BoundedRun Result :=
  match r.stopping with
  | some stopping => r.afterStopping (stopping.poll f)
  | none =>
    match f.exitCode? r.process with
    | some code =>
      let (f, result) := r.finish code f
      (f, .done result)
    | none =>
      if Instant.reached f.now r.deadline then
        let pid := ((f.process? r.process).map (·.pid)).getD 0
        r.afterStopping (Stopping.start r.process (f.report [r.killNote pid]))
      else (f, .pending r)

def start (settings : Settings) (held : ProcessId → Bool) (request : Request)
    (limit : Option Seconds) (check track : Bool) (f : Fleet) :
    Fleet × Progress BoundedRun Result :=
  match f.startTracked settings held request track with
  | (f, .error failure) => (f, .done (.error failure))
  | (f, .ok process) =>
    let limit := limit.getD settings.runTimeout
    poll
      { process, command := request.command, limit, deadline := limit.deadline f.now, check
        tracked := track }
      f

def wake (r : BoundedRun) : Option Instant :=
  match r.stopping with
  | some stopping => stopping.wake
  | none => r.deadline

end BoundedRun

end Overseer
