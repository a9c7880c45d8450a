import Overseer.Text.Quoted
import Overseer.World.Process

/-!
# Programs

What a spawned command will do: which processes it starts, what it writes to its pipe, and how it
ends. A `Child` is such a program under way, as far as its parent can see it.
-/

namespace Overseer.World

inductive ProgramEvent where
  | output (bytes : List UInt8)
  | exit (code : Int)
  | endOfPipe
  | readError (text : String)
  deriving DecidableEq, Repr

/-- A process with the time until it exists, and the time from then until it dies on its own. -/
structure Birth where
  spec : ProcessSpec
  delay : Nat := 0
  lifetime : Option Nat := none
  deriving DecidableEq, Repr

structure Program where
  shell : ProcessSpec
  family : List Birth := []
  /-- What it does, so long after its start. -/
  events : List (Nat × ProgramEvent) := []
  /-- Whether a descendant holds the pipe open after the program has ended. -/
  holdsPipe : Bool := false
  hasOutput : Bool := true
  /-- The exit code after the request to end, if the program chooses one. -/
  termCode : Option Int := none
  deriving DecidableEq, Repr

/-- What is said of a failed attempt to spawn. -/
def refusalText (number : Int) (text : String) (file : Option String) : String :=
  let said := ({ number, text } : OsError).message
  match file with
  | none => said
  | some file =>
    let file := Text.quoted file
    s!"{said}: {file}"

inductive Spawnable where
  | program (program : Program)
  | refused (reason : String)
  deriving DecidableEq, Repr

inductive PipeState where
  | open
  | ended
  | failed (error : OsError)
  deriving DecidableEq, Repr

def PipeState.isFailed : PipeState → Bool
  | .failed _ => true
  | _ => false

/-- A pipe: the chunks that have not been read yet. -/
structure Pipe where
  unread : List (List UInt8) := []
  state : PipeState := .open
  deriving DecidableEq, Repr

namespace Pipe

def write (p : Pipe) (bytes : List UInt8) : Pipe :=
  match p.state with
  | .open => { p with unread := p.unread ++ [bytes] }
  | _ => p

def finish (p : Pipe) (state : PipeState) : Pipe :=
  match p.state with
  | .open => { p with state }
  | _ => p

end Pipe

structure Child where
  pid : Int
  serial : Serial
  pipe : Option Pipe
  exitCode : Option Int := none
  holdsPipe : Bool
  termCode : Option Int
  deriving DecidableEq, Repr

namespace Child

/-- The child after its shell has ended. Its pipe ends too, unless a descendant holds it. -/
def endWith (c : Child) (code : Int) : Child :=
  { c with
    exitCode := some code
    pipe := if c.holdsPipe then c.pipe else c.pipe.map (·.finish .ended) }

def codeAfter (c : Child) : Signal → Int
  | .term => c.termCode.getD (-15)
  | .kill => -9

end Child

end Overseer.World
