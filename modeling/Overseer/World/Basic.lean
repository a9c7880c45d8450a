import Overseer.Command
import Overseer.World.Program

/-!
# The simulated system

A system as its processes see it: the clock, the process table, the programs that can be spawned,
and what is still to happen. Things happen at their time, those of one moment in the order in which
they were set up. Nothing that happens sets up more, so time can be moved forward in one pass over
what is due (`advance`).
-/

namespace Overseer.World

inductive Happening where
  | birth (p : Process)
  | death (serial : Serial) (child : Option ChildId) (signal : Option Signal)
  | program (child : ChildId) (event : ProgramEvent)
  deriving DecidableEq, Repr

inductive Attempt where
  | group (pgid : Int) (signal : Signal)
  | single (pid : Int) (signal : Signal)
  deriving DecidableEq, Repr

structure SpawnRecord where
  launch : Launch
  pid : Option Int
  deriving DecidableEq, Repr

/-- What stands in the way of signalling a group, for each signal on its own. -/
structure GroupObstacles where
  term : Option OsError := none
  kill : Option OsError := none
  deriving DecidableEq, Repr

namespace GroupObstacles

def against (o : GroupObstacles) : Signal → Option OsError
  | .term => o.term
  | .kill => o.kill

def ofNumber (number : Int) : GroupObstacles :=
  let error : OsError := { number, text := "simulated killpg failure" }
  { term := some error, kill := some error }

instance : Coe Int GroupObstacles := ⟨ofNumber⟩

end GroupObstacles

abbrev GroupErrors := List (Int × GroupObstacles)

structure System where
  now : Instant := 0
  table : ProcessTable := []
  agenda : List (Instant × Happening) := []
  serials : Nat := 0
  children : Array Child := #[]
  /-- The children whose shells have ended, in that order. -/
  endings : Array ChildId := #[]
  /-- What the next attempts to spawn lead to. -/
  programs : List Spawnable := []
  groupErrors : GroupErrors := []
  windows : Bool := false
  env : Environment := []
  currentDir : String := "/work"
  dirs : List String := ["/work"]
  signals : Array (Instant × Attempt) := #[]
  spawned : Array SpawnRecord := #[]
  deriving Repr

/-- The agenda with one more thing, after all that is due no later. -/
def schedule (agenda : List (Instant × Happening)) (due : Instant) (h : Happening) :
    List (Instant × Happening) :=
  match agenda with
  | [] => [(due, h)]
  | (t, g) :: rest => if due < t then (due, h) :: (t, g) :: rest else (t, g) :: schedule rest due h

namespace System

def plan (w : System) (due : Instant) (h : Happening) : System :=
  { w with agenda := schedule w.agenda due h }

/-- The end of a child's shell; only the first end counts. -/
def endChild (w : System) (c : ChildId) (code : Child → Int) : System :=
  match w.children[c]? with
  | none => w
  | some child =>
    if child.exitCode.isSome then w
    else
      { w with
        children := w.children.setIfInBounds c (child.endWith (code child))
        endings := w.endings.push c }

/-- The death of a process. If it was the shell of a program, the program ends with it. -/
def die (w : System) (serial : Serial) (child : Option ChildId) (signal : Option Signal) :
    System :=
  let w := { w with table := w.table.bury serial }
  match child, signal with
  | some c, some signal => w.endChild c (·.codeAfter signal)
  | _, _ => w

def onPipe (w : System) (c : ChildId) (change : Pipe → Pipe) : System :=
  { w with
    children := w.children.modify c fun child => { child with pipe := child.pipe.map change } }

def exitShell (w : System) (c : ChildId) (code : Int) : System :=
  match w.children[c]? with
  | none => w
  | some child =>
    if child.exitCode.isSome then w
    else { w with table := w.table.remove child.serial }.endChild c fun _ => code

def runEvent (w : System) (c : ChildId) (event : ProgramEvent) : System :=
  match event with
  | .output bytes => w.onPipe c (·.write bytes)
  | .endOfPipe => w.onPipe c (·.finish .ended)
  | .readError text => w.onPipe c (·.finish (.failed { number := 5, text }))
  | .exit code => w.exitShell c code

def apply (w : System) (h : Happening) : System :=
  match h with
  | .birth p => { w with table := w.table.insert p }
  | .death serial child signal => w.die serial child signal
  | .program c event => w.runEvent c event

def isDue (t : Instant) (entry : Instant × Happening) : Bool := entry.1 ≤ t

/-- Moves the clock forward: all that is due until then happens in order. -/
def advance (w : System) (t : Instant) : System :=
  let due := w.agenda.takeWhile (isDue t)
  let w := { w with agenda := w.agenda.dropWhile (isDue t) }
  { due.foldl (fun w entry => { w with now := entry.1 }.apply entry.2) w with now := t }

def nextChange (w : System) : Option Instant := w.agenda.head?.map (·.1)

def settleOrPlan (w : System) (delay : Nat) (h : Happening) : System :=
  if delay = 0 then w.apply h else w.plan (w.now + delay) h

def bear (w : System) (b : Birth) : System :=
  let serial := w.serials
  let w := { w with serials := serial + 1 }
  let w := w.settleOrPlan b.delay (.birth { b.spec with serial })
  match b.lifetime with
  | some lifetime => w.settleOrPlan (b.delay + lifetime) (.death serial none none)
  | none => w

/-- A signal reaches a process. Each signal takes effect once, and only on a live process. -/
def deliver (w : System) (serial : Serial) (signal : Signal) : System :=
  match w.table.deref? serial with
  | none => w
  | some p =>
    let (seen, delay) := match signal with
      | .term => (p.termSeen, p.onTerm)
      | .kill => (p.killSeen, p.onKill)
    if p.zombie || seen then w
    else
      let mark (p : Process) : Process := match signal with
        | .term => { p with termSeen := true }
        | .kill => { p with killSeen := true }
      let w := { w with table := w.table.update serial mark }
      match delay with
      | none => w
      | some delay => w.settleOrPlan delay (.death serial p.child (some signal))

/-- Starts a program: its shell and its family come into being, and its first events happen. -/
def startProgram (w : System) (p : Program) : System × ChildId :=
  let c := w.children.size
  let serial := w.serials
  let child : Child :=
    { pid := p.shell.pid, serial, holdsPipe := p.holdsPipe, termCode := p.termCode
      pipe := if p.hasOutput then some {} else none }
  let shell : Process := { p.shell with serial, child := some c }
  let w := { w with serials := serial + 1, children := w.children.push child
                    table := w.table.insert shell }
  let w := p.family.foldl bear w
  (p.events.foldl (fun w (delay, event) => w.settleOrPlan delay (.program c event)) w, c)

def spawn (w : System) (launch : Launch) : System × Except String ChildId :=
  let (next, programs) := match w.programs with
    | [] => (Spawnable.refused (refusalText 11 "no program left" none), [])
    | next :: rest => (next, rest)
  let w := { w with programs }
  match next with
  | .refused reason => ({ w with spawned := w.spawned.push ⟨launch, none⟩ }, .error reason)
  | .program p =>
    let w := { w with spawned := w.spawned.push ⟨launch, some p.shell.pid⟩ }
    let (w, c) := w.startProgram p
    (w, .ok c)

def pidOf (w : System) (c : ChildId) : Int := (w.children[c]?.map (·.pid)).getD 0

def exitCode? (w : System) (c : ChildId) : Option Int := w.children[c]?.bind (·.exitCode)

def pipe? (w : System) (c : ChildId) : Option Pipe := w.children[c]?.bind (·.pipe)

/-- The system after the pipe of a child has been read. What a failed pipe still held is lost. -/
def emptyPipe (w : System) (c : ChildId) : System := w.onPipe c ({ · with unread := [] })

end System

end Overseer.World
