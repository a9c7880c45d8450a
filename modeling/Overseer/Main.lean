import Overseer.CommandLine.Recording
import Overseer.CommandLine.Run

/-!
# The program

Runs a command line against the recording of a command on the standard input.
-/

namespace Overseer.CommandLine

def settingNames : List String :=
  ["E2E_CLI_PREFIX", "E2E_CLI", "E2E_RUN_TIMEOUT", "E2E_READ_TIMEOUT", "E2E_READY_TIMEOUT",
    "E2E_DEBUG_ENV", "E2E_ECHO_OUTPUT", "E2E_LOG_DEBUG", "E2E_TERM_TIMEOUT", "E2E_KILL_TIMEOUT",
    "E2E_DRAIN_TIMEOUT"]

def settingVariables : IO Environment := do
  let values ← settingNames.mapM fun name => return (name, ← IO.getEnv name)
  return values.filterMap fun (name, value) => value.map (name, ·)

def millisStamp (t : Instant) : String := toString (Instant.toMillis t)

def program (arguments : List String) : IO UInt32 := do
  let env ← settingVariables
  let dir := (← IO.getEnv "PWD").getD "/"
  let lines ← (← IO.getStdin).lines
  let report := run arguments (recordedScene env dir lines.toList)
  IO.print report.output
  IO.eprint (report.errorText millisStamp)
  match report.code with
  | some (.ok code) => return (code % 256).toNat.toUInt32
  | some (.error failure) =>
    IO.eprintln failure.message
    return 1
  | none => return 1

end Overseer.CommandLine

def main (arguments : List String) : IO UInt32 := Overseer.CommandLine.program arguments
