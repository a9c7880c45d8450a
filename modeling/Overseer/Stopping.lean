import Overseer.Fleet
import Overseer.Tree.Termination

/-!
# Stopping a process

A process is stopped by ending its tree and then waiting until its end is reported. A process whose
end has been reported is left alone.
-/

namespace Overseer

open Overseer.Tree

structure Stopping where
  process : ProcessId
  /-- The ending of the tree, until that is done. -/
  tree : Option Termination
  deriving DecidableEq, Repr

namespace Stopping

abbrev Result := Except Failure Unit

def awaitEnd (s : Stopping) (f : Fleet) : Fleet × Progress Stopping Result :=
  if f.isRunning s.process then (f, .pending { s with tree := none }) else (f, .done (.ok ()))

def poll (s : Stopping) (f : Fleet) : Fleet × Progress Stopping Result :=
  match s.tree with
  | none => s.awaitEnd f
  | some tree =>
    match tree.poll f.scene with
    | (scene, .pending tree) => ({ f with scene }, .pending { s with tree := some tree })
    | (scene, .done (.error failure)) => ({ f with scene }, .done (.error failure))
    | (scene, .done (.ok ())) => s.awaitEnd { f with scene }

def terminationOf (p : Supervised) : Termination :=
  { pid := p.pid, termLimit := p.termLimit, killLimit := p.killLimit }

def start (process : ProcessId) (f : Fleet) : Fleet × Progress Stopping Result :=
  match f.process? process with
  | none => (f, .done (.ok ()))
  | some p =>
    if p.isRunning then poll { process, tree := some (terminationOf p) } f
    else (f, .done (.ok ()))

def wake (s : Stopping) : Option Instant := s.tree.bind Termination.wake

end Stopping

end Overseer
