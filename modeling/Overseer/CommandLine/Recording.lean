import Overseer.World.Scene

/-!
# Recordings

What a command did, one event to a line: the milliseconds since its start, a word for the kind of
event, and the rest of the line. `out` writes a line, `exit` ends the shell with a code, `eof` ends
the pipe, and `fail` makes reading it fail.
-/

namespace Overseer.CommandLine

open World

def splitWord (s : List Char) : String × String :=
  (String.ofList (s.takeWhile (· ≠ ' ')), String.ofList ((s.dropWhile (· ≠ ' ')).drop 1))

def recordedEvent? (kind argument : String) : Option ProgramEvent :=
  match kind with
  | "out" => some (.output (argument ++ "\n").toUTF8.toList)
  | "exit" => argument.toInt?.map .exit
  | "eof" => some .endOfPipe
  | "fail" => some (.readError argument)
  | _ => none

def recorded? (line : String) : Option (Nat × ProgramEvent) := do
  let (time, rest) := splitWord line.toList
  let (kind, argument) := splitWord rest.toList
  let ms ← time.toNat?
  let event ← recordedEvent? kind argument
  return (Instant.ofMillis ms, event)

/-- The program that some lines describe; lines that describe nothing are left out. -/
def recordedProgram (lines : List String) : Program :=
  { shell := { pid := 2, ppid := 1, pgid := 2 }, events := lines.filterMap recorded? }

def recordedScene (env : Environment) (dir : String) (lines : List String) : Scene :=
  .opening { programs := [.program (recordedProgram lines)], env, currentDir := dir, dirs := [dir] }
    []

end Overseer.CommandLine
