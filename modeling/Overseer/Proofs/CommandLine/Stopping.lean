import Overseer.CommandLine.Run
import Overseer.Proofs.Teardown.TreeCalls
import Overseer.Proofs.Timeline.TaskTurns

/-!
# Stopping the command of a run

A run of the command line does no more to its fleet than callers do (`Fleet.Onward`), and what a
call that stops the command does to the system depends on the system and on the process alone. So
the call can be told from the turns of the run (`Closing`), whatever the run reports besides.
-/

namespace Overseer

open Overseer.Tree World Timeline

namespace Fleet

inductive Onward (f : Fleet) : Fleet → Prop where
  | refl : Onward f f
  | calls {k : Prop} {g h : Fleet} : Onward f g → Calls k g h → Onward f h
  | advance {g : Fleet} (moment : Instant) : Onward f g → Onward f (g.advance moment)
  | readOutputs {g : Fleet} : Onward f g → Onward f g.readOutputs
  | watchEnds {g : Fleet} : Onward f g → Onward f g.watchEnds

/-- The end of a process has been reported with a code, and its log is closed on some output. -/
def Reported (f : Fleet) (id : ProcessId) (code : Int) (output : String) : Prop :=
  ∃ p, f.process? id = some p ∧ p.exitCode? = some code ∧ p.log.closed = true ∧
    p.log.snapshot = output

variable {f g : Fleet} {id : ProcessId} {p : Supervised} {code : Int} {output : String}

/-- What everything keeps up holds between the systems of any two moments. -/
theorem Onward.system {R : System → System → Prop} (h : f.Onward g) (hR : System.Ongoing R) :
    R f.scene.system g.scene.system := by
  induction h with
  | refl => exact hR.refl _
  | calls _ hc ih => exact hR.trans ih (hR.calls hc)
  | advance moment _ ih => exact hR.trans ih (hR.advance _ moment)
  | readOutputs _ ih => exact hR.trans ih (hR.readOutputs _)
  | watchEnds _ ih => exact hR.trans ih (hR.watchEnds _)

/-- What everything keeps up holds between a process now and the same process later. -/
theorem Onward.process {R : Supervised → Supervised → Prop} (h : f.Onward g)
    (hR : Supervised.Enduring R) (hp : f.process? id = some p) :
    ∃ q, g.process? id = some q ∧ R p q := by
  induction h with
  | refl => exact ⟨p, hp, hR.refl p⟩
  | calls _ hc ih =>
    obtain ⟨q, hq, hpq⟩ := ih
    obtain ⟨r, hr, hqr⟩ := hc.process hq
    exact ⟨r, hr, hR.trans hpq (hR.same hqr)⟩
  | advance _ _ ih => exact ih
  | readOutputs _ ih =>
    obtain ⟨q, hq, hpq⟩ := ih
    obtain ⟨r, hr, hqr⟩ := hR.readOutputs hq
    exact ⟨r, hr, hR.trans hpq hqr⟩
  | watchEnds _ ih =>
    obtain ⟨q, hq, hpq⟩ := ih
    obtain ⟨r, hr, hqr⟩ := hR.watchEnds hq
    exact ⟨r, hr, hR.trans hpq hqr⟩

theorem Onward.consistent (h : f.Onward g) (hf : f.Each Supervised.Consistent) :
    g.Each Supervised.Consistent := by
  induction h with
  | refl => exact hf
  | calls _ hc ih => exact ih.calls hc (fun _ _ hs hp => hp.same hs) fun _ hp => hp.consistent
  | advance _ _ ih => exact ih
  | readOutputs _ ih => exact ih.stepEach (fun _ s hp => Supervised.consistent_readOutput hp s) _
  | watchEnds _ ih =>
    exact ((ih.stepEach (fun _ s hp => Supervised.consistent_noticeExit hp s) _).stepEach
      (fun _ s hp => Supervised.consistent_giveUpReading hp s) _).stepEach
      (fun _ s hp => Supervised.consistent_reportEnd hp s) _

theorem reported_of_exitCode? (hf : f.Each Supervised.Consistent)
    (hx : f.exitCode? id = some code) : f.Reported id code (f.output id) := by
  obtain ⟨p, hp, -, hclosed, hcode⟩ := exited_of_exitCode? hf hx
  refine ⟨p, hp, hcode, hclosed, ?_⟩
  rw [output, hp]
  rfl

theorem Reported.onward (h : f.Reported id code output) (hf : f.Each Supervised.Consistent)
    (hg : f.Onward g) : g.Reported id code output := by
  obtain ⟨p, hp, hcode, hclosed, houtput⟩ := h
  have hx : p.exitCode?.isSome = true := by simp [hcode]
  obtain ⟨q, hq, hsame⟩ := hg.process Supervised.enduring_exited hp
  obtain ⟨log, rfl, hl, hc⟩ := hsame ((hf id p hp).exited hx)
  refine ⟨_, hq, hcode, hc.trans hclosed, ?_⟩
  dsimp only
  rwa [OutputLog.snapshot, hl, ← OutputLog.snapshot]

end Fleet

namespace Stopping

variable {f g : Fleet} {process : ProcessId} {p q : Supervised}

/-- To stop a process depends on the system, and on whether its end has been reported. -/
theorem poll_congr (s : Stopping) (hsystem : f.scene.system = g.scene.system)
    (hrunning : f.isRunning s.process = g.isRunning s.process) :
    (s.poll f).1.scene.system = (s.poll g).1.scene.system ∧ (s.poll f).2 = (s.poll g).2 := by
  have hawait : ∀ x y : Fleet, x.scene.system = y.scene.system →
      x.isRunning s.process = y.isRunning s.process →
      (s.awaitEnd x).1.scene.system = (s.awaitEnd y).1.scene.system ∧
        (s.awaitEnd x).2 = (s.awaitEnd y).2 := by
    intro x y hs hr
    unfold awaitEnd
    rw [hr]
    split <;> exact ⟨hs, rfl⟩
  unfold poll
  cases s.tree with
  | none => exact hawait f g hsystem hrunning
  | some tree =>
    obtain ⟨hs, hp⟩ := Termination.poll_congr hsystem tree
    rcases hf : tree.poll f.scene with ⟨left, progress⟩
    rcases hg : tree.poll g.scene with ⟨right, other⟩
    rw [hf, hg] at hs hp
    obtain rfl : progress = other := hp
    dsimp only
    rw [hf, hg]
    obtain rest | ⟨failure | ⟨⟩⟩ := progress
    · exact ⟨hs, rfl⟩
    · exact ⟨hs, rfl⟩
    · exact hawait { f with scene := left } { g with scene := right } hs hrunning

theorem start_congr (hsystem : f.scene.system = g.scene.system)
    (hp : f.process? process = some p) (hq : g.process? process = some q) (hsame : p.Same q) :
    (start process f).1.scene.system = (start process g).1.scene.system ∧
      (start process f).2 = (start process g).2 := by
  obtain ⟨log, rfl, -, -⟩ := hsame
  have hrunning : f.isRunning process = g.isRunning process := by
    rw [Fleet.isRunning, Fleet.isRunning, hp, hq]
    rfl
  unfold start
  rw [hp, hq]
  dsimp only
  rw [show ({ p with log } : Supervised).isRunning = p.isRunning from rfl]
  split
  · exact poll_congr { process, tree := some (terminationOf p) } hsystem hrunning
  · exact ⟨hsystem, rfl⟩

end Stopping

namespace CommandLine

/-- The turns in which the command of a run is stopped, and how far that has come: it begins in the
first turn, and goes on in the others. -/
inductive Closing (process : ProcessId) :
    List (Fleet × Fleet) → Progress Stopping Stopping.Result → Prop where
  | start {turn : Fleet × Fleet} :
      turn.2.scene.system = (Stopping.start process turn.1).1.scene.system →
      Closing process [turn] (Stopping.start process turn.1).2
  | poll {turns : List (Fleet × Fleet)} {stopping : Stopping} {turn : Fleet × Fleet} :
      Closing process turns (.pending stopping) →
      turn.2.scene.system = (stopping.poll turn.1).1.scene.system →
      Closing process (turns ++ [turn]) (stopping.poll turn.1).2

theorem Closing.process_eq {process : ProcessId} {turns : List (Fleet × Fleet)} {s : Stopping}
    (h : Closing process turns (.pending s)) :
    s.process = process := by
  generalize hx : (Progress.pending s : Progress Stopping Stopping.Result) = progress at h
  induction h generalizing s with
  | start _ => exact Stopping.process_of_start hx.symm
  | poll _ _ ih => exact (Stopping.process_of_poll hx.symm).trans (ih rfl)

namespace Run

variable {k : Prop} {f g : Fleet}

theorem unechoed_entryNote (text : String) : Unechoed [entryNote text] :=
  unechoed_singleton nofun

theorem calls_conclude (h : Fleet.Calls k f g) (r : Run) (verdict : Verdict) :
    Fleet.Calls k f (r.conclude g verdict).1 := by
  cases verdict with
  | tooLong limit => exact h.report (unechoed_entryNote _)
  | missed => exact h
  | matched groups => exact h
  | broken failure => exact h

theorem calls_afterStopping (r : Run) (verdict : Verdict)
    {x : Fleet × Progress Stopping Stopping.Result} (h : Fleet.Calls k f x.1) :
    Fleet.Calls k f (r.afterStopping verdict x).1 := by
  obtain ⟨g, stopping | ⟨failure | ⟨⟩⟩⟩ := x
  · exact h
  · exact h
  · exact calls_conclude h r verdict

theorem calls_stop (h : Fleet.Calls k f g) (r : Run) (verdict : Verdict) :
    Fleet.Calls k f (r.stop verdict g).1 :=
  calls_afterStopping r verdict (Stopping.calls_start h r.process)

theorem calls_pollLine (h : Fleet.Calls k f g) (r : Run) (w : LineWait) :
    Fleet.Calls k f (r.pollLine w g).1 := by
  have hset := (h.setLog (LineWait.lines_poll w g.now (g.log r.process))
    (LineWait.closed_poll w g.now _)).report (Session.unechoed_poll w g.now (g.log r.process))
  unfold pollLine afterLine
  rcases hp : w.poll g.now (g.log r.process) with ⟨log, notes, rest | ⟨failure | found⟩⟩ <;>
    rw [hp] at hset
  · exact hset
  · exact calls_stop (hset.report (unechoed_entryNote _)) r _
  · exact calls_stop hset r _

theorem calls_pollEnd (h : Fleet.Calls k f g) (r : Run) (limit : Number.Seconds)
    (deadline : Option Instant) : Fleet.Calls k f (r.pollEnd limit deadline g).1 := by
  unfold pollEnd
  split
  · exact h
  · split
    · exact calls_stop h r _
    · exact h

theorem calls_poll (h : Fleet.Calls k f g) (r : Run) : Fleet.Calls k f (r.poll g).1 := by
  unfold poll
  split
  · exact calls_pollEnd h r _ _
  · exact calls_pollLine h r _
  · exact calls_afterStopping r _ (Stopping.calls_poll h _)

theorem calls_startStage (h : Fleet.Calls k f g) (settings : Settings) (arguments : Arguments)
    (process : ProcessId) : Fleet.Calls k f (startStage settings arguments process g).1 := by
  unfold startStage
  split
  · exact calls_poll h _
  · dsimp only
    split
    · exact calls_stop h _ _
    · exact calls_poll (h.setLog (OutputLog.lines_subscribe _) (OutputLog.closed_subscribe _)) _

end Run

end CommandLine

end Overseer
