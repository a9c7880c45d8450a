import Overseer.Clock
import Overseer.Progress

/-!
# The timeline

A script is a list of steps, each of which starts when the one before it has ended. A step can also
be started in the background, and be joined or cancelled later. Time stands still while there is
anything to do (`settle`) and then jumps to the next moment at which something can happen; when
nothing can ever happen any more, a step that has not ended hangs.

What the steps do is up to a `Machinery`: a state, commands that begin activities on it, and how an
activity goes on.
-/

namespace Overseer

inductive Step (κ : Type) where
  | pause (length : Nat)
  | background (name : String) (step : Step κ)
  | join (name : String)
  | cancel (name : String)
  | act (command : κ)
  deriving DecidableEq, Repr

inductive Ending (β : Type) where
  | nothing
  | result (value : β)
  | joined (time : Instant) (ending : Ending β)
  | cancelling (possible : Bool)
  | cancelled
  | unknownTask (name : String)
  deriving DecidableEq, Repr

structure Machinery (σ κ α β : Type) where
  now : σ → Instant
  /-- When the state changes next on its own. -/
  nextChange : σ → Option Instant
  advance : σ → Instant → σ
  deliver : σ → σ
  /-- Notices what has come to its end. -/
  complete : σ → σ
  start : List α → κ → σ → σ × Progress α β
  poll : α → σ → σ × Progress α β
  /-- When an activity has something to do next, as far as it knows. -/
  wake : α → Option Instant
  cancel : α → σ → σ

abbrev TaskId := Nat

inductive Errand (α : Type) where
  | pause (moment : Instant)
  | join (task : TaskId)
  | act (activity : α)
  deriving DecidableEq, Repr

inductive Task (α β : Type) where
  | pending (errand : Errand α)
  | ended (time : Instant) (ending : Ending β)
  deriving DecidableEq, Repr

def Task.activity? {α β : Type} : Task α β → Option α
  | .pending (.act a) => some a
  | _ => none

def Task.isPending {α β : Type} : Task α β → Bool
  | .pending _ => true
  | .ended _ _ => false

def Task.ofProgress {α β : Type} (now : Instant) : Progress α β → Task α β
  | .pending a => .pending (.act a)
  | .done value => .ended now (.result value)

def Task.wake {α β : Type} (wake : α → Option Instant) : Task α β → Option Instant
  | .pending (.pause moment) => some moment
  | .pending (.act a) => wake a
  | _ => none

structure Timeline (σ α β : Type) where
  state : σ
  tasks : Array (Task α β) := #[]
  names : List (String × TaskId) := []

structure Outcome (β : Type) where
  time : Instant
  ending : Ending β
  deriving DecidableEq, Repr

structure Transcript (β : Type) where
  outcomes : List (Outcome β) := []
  hung : Bool := false
  deriving DecidableEq, Repr

namespace Timeline

variable {σ κ α β : Type}

def activities (t : Timeline σ α β) : List α := t.tasks.toList.filterMap Task.activity?

def push (t : Timeline σ α β) (task : Task α β) : Timeline σ α β × TaskId :=
  ({ t with tasks := t.tasks.push task }, t.tasks.size)

def cancelTask (m : Machinery σ κ α β) (t : Timeline σ α β) (id : TaskId) :
    Timeline σ α β × Bool :=
  match t.tasks[id]? with
  | some (.pending errand) =>
    let state := match errand with
      | .act a => m.cancel a t.state
      | _ => t.state
    ({ t with state, tasks := t.tasks.setIfInBounds id (.ended (m.now t.state) .cancelled) }, true)
  | _ => (t, false)

def startStep (m : Machinery σ κ α β) (t : Timeline σ α β) : Step κ → Timeline σ α β × Task α β
  | .pause length => (t, .pending (.pause (m.now t.state + length)))
  | .background name step =>
    let (t, task) := startStep m t step
    let (t, id) := t.push task
    ({ t with names := (name, id) :: t.names }, .ended (m.now t.state) .nothing)
  | .join name =>
    match t.names.lookup name with
    | some id => (t, .pending (.join id))
    | none => (t, .ended (m.now t.state) (.unknownTask name))
  | .cancel name =>
    match t.names.lookup name with
    | some id =>
      let (t, possible) := cancelTask m t id
      (t, .ended (m.now t.state) (.cancelling possible))
    | none => (t, .ended (m.now t.state) (.unknownTask name))
  | .act command =>
    let (state, progress) := m.start t.activities command t.state
    ({ t with state }, Task.ofProgress (m.now state) progress)

def pollErrand (m : Machinery σ κ α β) (t : Timeline σ α β) : Errand α → σ × Task α β
  | .pause moment =>
    if moment ≤ m.now t.state then (t.state, .ended (m.now t.state) .nothing)
    else (t.state, .pending (.pause moment))
  | .join id =>
    match t.tasks[id]? with
    | some (.ended time ending) => (t.state, .ended (m.now t.state) (.joined time ending))
    | _ => (t.state, .pending (.join id))
  | .act a =>
    let (state, progress) := m.poll a t.state
    (state, Task.ofProgress (m.now state) progress)

def pollTask (m : Machinery σ κ α β) (t : Timeline σ α β) (id : TaskId) : Timeline σ α β :=
  match t.tasks[id]? with
  | some (.pending errand) =>
    let (state, task) := pollErrand m t errand
    { t with state, tasks := t.tasks.setIfInBounds id task }
  | _ => t

def pollAll (m : Machinery σ κ α β) (t : Timeline σ α β) : Timeline σ α β :=
  (List.range t.tasks.size).foldl (pollTask m) t

/-- One round: what comes in reaches the tasks before what has come to its end is noticed. -/
def round (m : Machinery σ κ α β) (t : Timeline σ α β) : Timeline σ α β :=
  let t := pollAll m { t with state := m.deliver t.state }
  pollAll m { t with state := m.complete (m.deliver t.state) }

def rounds (m : Machinery σ κ α β) : (count : Nat) → Timeline σ α β → Timeline σ α β
  | 0, t => t
  | count + 1, t => rounds m count (round m t)

def pendingCount (t : Timeline σ α β) : Nat :=
  (t.tasks.filter Task.isPending).size

/-- Lets everything happen that can at this moment. A round in which no task ends leaves nothing to
do for the next one but to notice what it has led to. -/
def settle (m : Machinery σ κ α β) (t : Timeline σ α β) : Timeline σ α β :=
  rounds m (t.pendingCount + 2) t

def nextMoment (m : Machinery σ κ α β) (t : Timeline σ α β) : Option Instant :=
  t.tasks.foldl (fun moment task => Instant.earlier moment (task.wake m.wake))
    (m.nextChange t.state)

/-- Moves on from moment to moment, at most so many, until a task has ended. -/
def await (m : Machinery σ κ α β) (id : TaskId) :
    (fuel : Nat) → Timeline σ α β → Timeline σ α β × Option (Outcome β)
  | 0, t => (t, none)
  | fuel + 1, t =>
    match t.tasks[id]? with
    | some (.ended time ending) => (t, some ⟨time, ending⟩)
    | _ =>
      match nextMoment m t with
      | none => (t, none)
      | some moment => await m id fuel (settle m { t with state := m.advance t.state moment })

def takeStep (m : Machinery σ κ α β) (fuel : Nat) (t : Timeline σ α β) (step : Step κ) :
    Timeline σ α β × Option (Outcome β) :=
  let (t, task) := startStep m t step
  let (t, id) := t.push task
  await m id fuel (settle m t)

def takeSteps (m : Machinery σ κ α β) (fuel : Nat) (t : Timeline σ α β) :
    List (Step κ) → Timeline σ α β × Transcript β
  | [] => (t, {})
  | step :: rest =>
    match takeStep m fuel t step with
    | (t, none) => (t, { hung := true })
    | (t, some outcome) =>
      let (t, transcript) := takeSteps m fuel t rest
      (t, { transcript with outcomes := outcome :: transcript.outcomes })

/-- How many moments a step is given before it counts as hung: more than pass in any run that
ends. -/
def patience : Nat := 1000000000000

def runScript (m : Machinery σ κ α β) (state : σ) (script : List (Step κ)) : σ × Transcript β :=
  let (t, transcript) := takeSteps m patience { state } script
  (t.state, transcript)

end Timeline

end Overseer
