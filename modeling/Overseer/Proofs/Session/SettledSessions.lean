import Overseer.Proofs.Supervision.Exits
import Overseer.Proofs.Timeline.PassiveTasks

/-!
# Sessions in which everything has settled

When everything has settled, there is nothing left to read or to notice, and no activity has
anything to do (`still_move`). So the number of rounds makes no difference, and a caller who waits
for the end of a process makes none either: if the wait is cancelled, the state of the session is at
every later time what it would have been otherwise. -/

namespace Overseer

open Overseer.Tree World

theorem World.Scene.report_nil (s : Scene) : s.report [] = s := by
  unfold Scene.report Journal.add
  simp

section

variable {p : Supervised} {c : Child} {ch : Chronicle} {now : Instant} {s : Scene}

/-- Where everything is at rest, to read leaves the scene and the process as they are. -/
theorem Settled.readOutput_eq (h : Settled p c ch now)
    (hc : s.system.children[p.child]? = some c) : p.readOutput s = (s, p) := by
  by_cases hr : p.reader = .reading
  · obtain ⟨ho, hunread⟩ := h.upToDate hr
    cases hp : c.pipe with
    | none => simp [Child.isOpen, hp] at ho
    | some pipe =>
      have hempty : pipe.unread = [] := by simpa [Child.unread, hp] using hunread
      have hstate : (pipe.state == .open) = true := by simpa [Child.isOpen, hp] using ho
      have hpipe : s.system.pipe? p.child = some pipe := by
        rw [System.pipe?, hc, Option.bind_some, hp]
      have hreader : p.readerAfter pipe = p.reader :=
        ((readerAfter_eq_reading_iff hr).mpr hstate).trans hr.symm
      have hsystem : s.system.emptyPipe p.child = s.system := by
        unfold System.emptyPipe System.onPipe
        rw [modify_of_getElem? fun child hchild => ?_]
        obtain rfl := Option.some.inj (hc.symm.trans hchild)
        obtain ⟨unread, state⟩ := pipe
        obtain rfl : unread = [] := hempty
        simp only [hp, Option.map_some]
        rw [← hp]
      unfold Supervised.readOutput
      rw [hr]
      dsimp only
      rw [hpipe]
      dsimp only
      rw [hempty, List.flatten_nil, Supervised.readChunks_reads_nil]
      dsimp only
      rw [hsystem, hreader, Scene.report_nil]
  · exact readOutput_of_not_reading hr s

theorem Settled.noticeExit_eq (h : Settled p c ch now)
    (hc : s.system.children[p.child]? = some c) : p.noticeExit s = (s, p) := by
  unfold Supervised.noticeExit
  split
  next code hphase hcode =>
    rw [System.exitCode?, hc, Option.bind_some, h.running hphase] at hcode
    cases hcode
  · rfl

theorem Settled.giveUpReading_eq (h : Settled p c ch now) (hnow : s.now = now) :
    p.giveUpReading s = (s, p) := by
  unfold Supervised.giveUpReading
  split
  next code deadline hphase hr =>
    obtain ⟨-, hreached⟩ := h.draining code deadline hphase
    rw [if_neg (by simp [hnow, hreached])]
  · rfl

theorem Settled.reportEnd_eq (h : Settled p c ch now) (s : Scene) : p.reportEnd s = (s, p) := by
  unfold Supervised.reportEnd
  split
  next code deadline hphase hr => cases hr.symm.trans (h.draining code deadline hphase).1
  next code deadline text hphase hr => cases hr.symm.trans (h.draining code deadline hphase).1
  · rfl

end

namespace Fleet

variable {f g : Fleet} {id : ProcessId}

/-- A step that changes nothing can be taken with any number of processes. -/
theorem stepEach_eq {step : Supervised → Scene → Scene × Supervised}
    (h : ∀ id p, f.process? id = some p → step p f.scene = (f.scene, p)) (ids : List ProcessId) :
    f.stepEach step ids = f := by
  have hone : ∀ id, stepProcess step f id = f := by
    intro id
    unfold stepProcess
    cases hp : f.processes[id]? with
    | none => rfl
    | some p =>
      dsimp only
      rw [h id p hp]
      dsimp only
      rw [setIfInBounds_of_getElem? hp]
  induction ids with
  | nil => rfl
  | cons id ids ih => exact (congrArg (stepEach · step ids) (hone id)).trans ih

def Rested (f : Fleet) : Prop :=
  ∀ id p c, f.view? id = some (p, c) → ∃ ch, Settled p c ch f.now

theorem Rested.readOutputs (h : f.Rested) (hf : f.Paired) : f.readOutputs = f := by
  refine stepEach_eq (fun id p hp => ?_) _
  obtain ⟨c, hv⟩ := hf.of_process hp
  obtain ⟨ch, hsettled⟩ := h id p c hv
  exact hsettled.readOutput_eq (view?_eq_some_iff.mp hv).2

theorem Rested.watchEnds (h : f.Rested) (hf : f.Paired) : f.watchEnds = f := by
  have hstep : ∀ {step : Supervised → Scene → Scene × Supervised},
      (∀ p c ch, Settled p c ch f.now → f.scene.system.children[p.child]? = some c →
        step p f.scene = (f.scene, p)) → f.stepEach step f.ended = f := by
    intro step hs
    refine stepEach_eq (fun id p hp => ?_) _
    obtain ⟨c, hv⟩ := hf.of_process hp
    obtain ⟨ch, hsettled⟩ := h id p c hv
    exact hs p c ch hsettled (view?_eq_some_iff.mp hv).2
  unfold Fleet.watchEnds
  dsimp only
  rw [hstep fun p c ch hs hc => hs.noticeExit_eq hc,
    hstep fun p c ch hs _ => hs.giveUpReading_eq rfl,
    hstep fun p c ch hs _ => hs.reportEnd_eq _]

/-- A fleet after somebody has gone on: the same processes have exited, and what was empty of their
queues still is. -/
structure Calm (f g : Fleet) : Prop where
  now : g.now = f.now
  exitCode : ∀ id, g.exitCode? id = f.exitCode? id
  isRunning : ∀ id, g.isRunning id = f.isRunning id
  queue : ∀ id q, (f.log id).queue q = #[] → (g.log id).queue q = #[]

theorem Calm.of_processes (hnow : g.now = f.now) (h : g.processes = f.processes) : Calm f g where
  now := hnow
  exitCode id := by rw [exitCode?, exitCode?, process?, process?, h]
  isRunning id := by rw [Fleet.isRunning, Fleet.isRunning, process?, process?, h]
  queue id q hq := by
    rw [log, process?, h]
    exact hq

theorem Calm.refl (f : Fleet) : Calm f f := .of_processes rfl rfl

theorem Calm.trans {h : Fleet} (hfg : Calm f g) (hgh : Calm g h) : Calm f h where
  now := hgh.now.trans hfg.now
  exitCode id := (hgh.exitCode id).trans (hfg.exitCode id)
  isRunning id := (hgh.isRunning id).trans (hfg.isRunning id)
  queue id q hq := hgh.queue id q (hfg.queue id q hq)

theorem Calm.setLog {log : OutputLog} (h : ∀ q, (f.log id).queue q = #[] → log.queue q = #[]) :
    Calm f (f.setLog id log) where
  now := rfl
  exitCode other := by
    unfold exitCode?
    rw [process?_setLog]
    split
    · cases f.process? other <;> rfl
    · rfl
  isRunning other := by
    unfold Fleet.isRunning
    rw [process?_setLog]
    split
    · cases f.process? other <;> rfl
    · rfl
  queue other q hq := by
    unfold Fleet.log at h hq ⊢
    rw [process?_setLog]
    split
    next he =>
      subst he
      cases hp : f.process? id with
      | none => rfl
      | some p => exact h q hq
    · exact hq

theorem queue_setLog {log : OutputLog} {q : QueueId} (h : log.queue q = #[]) :
    ((f.setLog id log).log id).queue q = #[] := by
  unfold Fleet.log
  rw [process?_setLog, if_pos rfl]
  cases f.process? id with
  | none => rfl
  | some p => exact h

theorem setLog_self (f : Fleet) (id : ProcessId) : f.setLog id (f.log id) = f := by
  unfold setLog
  rw [modify_of_getElem? fun p hp => by rw [log_eq hp]]

theorem report_nil (f : Fleet) : f.report [] = f := by
  unfold report
  rw [Scene.report_nil]

end Fleet

namespace OutputLog

variable {log : OutputLog} {q other : QueueId}

theorem queue_drain_empty (h : log.queue q = #[]) : (log.drain other).1.queue q = #[] := by
  by_cases he : other = q
  · subst he
    unfold queue drain
    rw [Array.getElem?_setIfInBounds]
    split
    · split <;> rfl
    · exact h
  · rw [queue_drain_of_ne he, h]

theorem queue_drain (log : OutputLog) (q : QueueId) : (log.drain q).1.queue q = #[] := by
  unfold queue drain
  rw [Array.getElem?_setIfInBounds, if_pos rfl]
  split <;> rfl

theorem drain_of_empty (h : log.queue q = #[]) : log.drain q = (log, #[]) := by
  have hqueues : log.queues.setIfInBounds q #[] = log.queues := by
    cases hq : log.queues[q]? with
    | none =>
      rw [Array.setIfInBounds, dif_neg (Nat.not_lt.mpr (Array.getElem?_eq_none_iff.mp hq))]
    | some items =>
      have hitems : log.queue q = items := by rw [queue, hq]; rfl
      rw [← h, hitems, setIfInBounds_of_getElem? hq]
  unfold drain
  rw [hqueues, h]

end OutputLog

def Stopping.Waits (f : Fleet) (s : Stopping) : Prop :=
  match s.tree with
  | some tree => tree.Quiet f.now
  | none => f.isRunning s.process = true

def BoundedRun.Waits (f : Fleet) (r : BoundedRun) : Prop :=
  match r.stopping with
  | some stopping => stopping.Waits f
  | none => f.exitCode? r.process = none ∧ Instant.reached f.now r.deadline = false

def Teardown.EntryWaits (f : Fleet) (entry : Tracked) : EntryEnd → Prop
  | .ending tree => tree.Quiet f.now
  | .waiting => f.isRunning entry.process = true
  | .ended _ => True

structure Teardown.Waits (f : Fleet) (t : Teardown) : Prop where
  each : ∀ entry ∈ t.entries, EntryWaits f entry.1 entry.2
  unfinished : t.entries.all (isOver ·.2) = false

namespace Session

def Activity.Waits (f : Fleet) : Activity → Prop
  | .line process _ w =>
    (f.log process).queue w.queue = #[] ∧ Instant.reached f.now w.deadline = false
  | .ending process _ => f.exitCode? process = none
  | .tree t => t.Quiet f.now
  | .stopping x => x.Waits f
  | .run r => r.Waits f
  | .teardown _ t => t.Waits f

end Session

section

variable {f g : Fleet}

theorem Stopping.Waits.calm {s : Stopping} (h : s.Waits f) (hc : Fleet.Calm f g) : s.Waits g := by
  unfold Stopping.Waits at h ⊢
  split at h
  · rwa [hc.now]
  · rwa [hc.isRunning]

theorem BoundedRun.Waits.calm {r : BoundedRun} (h : r.Waits f) (hc : Fleet.Calm f g) :
    r.Waits g := by
  unfold BoundedRun.Waits at h ⊢
  split at h
  · exact h.calm hc
  · rwa [hc.now, hc.exitCode]

theorem Teardown.EntryWaits.calm {entry : Tracked} {sofar : EntryEnd}
    (h : EntryWaits f entry sofar) (hc : Fleet.Calm f g) : EntryWaits g entry sofar := by
  cases sofar with
  | ending tree =>
    unfold EntryWaits at h ⊢
    rwa [hc.now]
  | waiting => exact (hc.isRunning _).trans h
  | ended failure => trivial

/-- Whoever has nothing to do has nothing to do after others have gone on. -/
theorem Session.Activity.Waits.calm {a : Activity} (h : a.Waits f) (hc : Fleet.Calm f g) :
    a.Waits g := by
  cases a with
  | line process report w => exact ⟨hc.queue _ _ h.1, hc.now ▸ h.2⟩
  | ending process report => exact (hc.exitCode _).trans h
  | tree tree =>
    unfold Waits at h ⊢
    rwa [hc.now]
  | stopping stopping => exact Stopping.Waits.calm h hc
  | run run => exact BoundedRun.Waits.calm h hc
  | teardown leaving teardown => exact ⟨fun entry he => (h.each entry he).calm hc, h.unfinished⟩

theorem Stopping.Waits.poll {s : Stopping} (h : s.Waits f) : s.poll f = (f, .pending s) := by
  obtain ⟨process, tree⟩ := s
  unfold Stopping.Waits at h
  unfold Stopping.poll
  cases tree with
  | some tree =>
    have hp : tree.poll f.scene = (f.scene, .pending tree) := Termination.Quiet.poll h
    dsimp only
    rw [hp]
  | none =>
    unfold awaitEnd
    dsimp only
    rw [if_pos h]

theorem BoundedRun.Waits.poll {r : BoundedRun} (h : r.Waits f) : r.poll f = (f, .pending r) := by
  unfold BoundedRun.Waits at h
  unfold BoundedRun.poll
  split
  next stopping hs =>
    rw [hs] at h
    rw [Stopping.Waits.poll h]
    unfold afterStopping
    dsimp only
    rw [← hs]
  next hs =>
    rw [hs] at h
    rw [h.1]
    dsimp only
    rw [if_neg (by simp [h.2])]

theorem Teardown.EntryWaits.poll {entry : Tracked} {sofar : EntryEnd}
    (h : EntryWaits f entry sofar) : pollEntry f entry sofar = (f, sofar) := by
  cases sofar with
  | ending tree =>
    have hp : tree.poll f.scene = (f.scene, .pending tree) := Termination.Quiet.poll h
    rw [pollEntry, hp]
  | waiting =>
    have hrunning : f.isRunning entry.process = true := h
    rw [pollEntry, awaitEnd, if_pos hrunning]
  | ended failure => rfl

theorem Teardown.pollEntries_of_waits {entries : List (Tracked × EntryEnd)}
    (h : ∀ entry ∈ entries, EntryWaits f entry.1 entry.2) :
    pollEntries f entries = (f, entries) := by
  induction entries with
  | nil => rfl
  | cons first entries ih =>
    rw [pollEntries, (h first List.mem_cons_self).poll]
    dsimp only
    rw [ih fun entry he => h entry (List.mem_cons_of_mem first he)]

theorem Teardown.Waits.poll {t : Teardown} (h : t.Waits f) : t.poll f = (f, .pending t) := by
  unfold Teardown.poll
  rw [pollEntries_of_waits h.each]
  dsimp only
  rw [if_neg (by simp [h.unfinished])]

theorem Session.Activity.Waits.poll {a : Activity} {s : Session} (h : a.Waits s.fleet) :
    poll a s = (s, .pending a) := by
  cases a with
  | line process report w =>
    obtain ⟨hqueue, hreached⟩ := h
    have hp : w.poll s.now (s.fleet.log process) = (s.fleet.log process, [], .pending w) := by
      unfold LineWait.poll
      rw [OutputLog.drain_of_empty hqueue]
      dsimp only [LineWait.verdict]
      rw [if_neg (by simp [show Instant.reached s.now w.deadline = false from hreached])]
    rw [Session.poll, pollLine, hp]
    dsimp only
    rw [Fleet.setLog_self, Fleet.report_nil]
    rfl
  | ending process report =>
    have hnone : s.fleet.exitCode? process = none := h
    rw [Session.poll, pollEnd, hnone]
  | tree tree =>
    have hp : tree.poll s.fleet.scene = (s.fleet.scene, .pending tree) := Termination.Quiet.poll h
    rw [Session.poll, pollTree, hp]
    rfl
  | stopping stopping =>
    rw [Session.poll, Stopping.Waits.poll h]
    rfl
  | run run =>
    rw [Session.poll, BoundedRun.Waits.poll h]
    rfl
  | teardown leaving teardown =>
    rw [Session.poll, Teardown.Waits.poll h]
    rfl

theorem Stopping.waits_awaitEnd (s : Stopping) (f : Fleet) :
    (s.awaitEnd f).2.Leaves (Waits (s.awaitEnd f).1) := by
  unfold awaitEnd
  split
  next hrunning => exact .pending hrunning
  · exact .done

theorem Stopping.waits_poll (s : Stopping) (f : Fleet) :
    (s.poll f).2.Leaves (Waits (s.poll f).1) := by
  have hnow := (calls_poll (k := False) (f := f) .refl s).carries.now
  have hquiet := leaves_poll s f
  unfold poll at hnow hquiet ⊢
  split
  · exact waits_awaitEnd s f
  next tree ht =>
    rw [ht] at hnow hquiet
    dsimp only at hnow hquiet
    split <;> rename_i hr <;> rw [hr] at hnow hquiet
    · cases hquiet with
      | pending hquiet =>
        refine .pending ?_
        unfold Waits
        dsimp only at hnow ⊢
        rw [hnow]
        exact hquiet _ rfl
    · exact .done
    · exact waits_awaitEnd s _

theorem Stopping.waits_start (process : ProcessId) (f : Fleet) :
    (Stopping.start process f).2.Leaves (Waits (Stopping.start process f).1) := by
  unfold Stopping.start
  split
  · exact .done
  · split
    · exact waits_poll _ f
    · exact .done

theorem BoundedRun.waits_afterStopping (r : BoundedRun)
    {x : Fleet × Progress Stopping Stopping.Result} (h : x.2.Leaves (Stopping.Waits x.1)) :
    (r.afterStopping x).2.Leaves (Waits (r.afterStopping x).1) := by
  obtain ⟨g, stopping | ⟨failure | ⟨⟩⟩⟩ := x
  · cases h with
    | pending h => exact .pending h
  · exact .done
  · exact .done

theorem BoundedRun.waits_poll (r : BoundedRun) (f : Fleet) :
    (r.poll f).2.Leaves (Waits (r.poll f).1) := by
  unfold poll
  split
  · exact waits_afterStopping r (Stopping.waits_poll _ f)
  next hs =>
    split
    · exact .done
    next hcode =>
      split
      · exact waits_afterStopping r (Stopping.waits_start r.process (f.report [_]))
      next hreached =>
        refine .pending ?_
        unfold Waits
        rw [hs]
        exact ⟨hcode, by simpa using hreached⟩

theorem Teardown.entryWaits_awaitEnd (entry : Tracked) (f : Fleet) :
    EntryWaits f entry (awaitEnd entry f) := by
  unfold awaitEnd
  split
  next hrunning => exact hrunning
  · trivial

theorem Teardown.calm_pollEntry (f : Fleet) (entry : Tracked) (sofar : EntryEnd) :
    Fleet.Calm f (pollEntry f entry sofar).1 := by
  refine .of_processes (calls_pollEntry (k := False) .refl entry sofar).carries.now ?_
  cases sofar with
  | ending tree =>
    rw [pollEntry]
    split <;> rfl
  | waiting => rfl
  | ended failure => rfl

theorem Teardown.entryWaits_pollEntry (f : Fleet) (entry : Tracked) (sofar : EntryEnd) :
    EntryWaits (pollEntry f entry sofar).1 entry (pollEntry f entry sofar).2 := by
  have hquiet := quiet_pollEntry f entry sofar
  have hnow := (calm_pollEntry f entry sofar).now
  cases sofar with
  | ending tree =>
    rw [pollEntry] at hquiet hnow ⊢
    split <;> rename_i hr <;> rw [hr] at hquiet hnow
    · unfold EntryWaits
      dsimp only at hnow ⊢
      rw [hnow]
      exact hquiet
    · trivial
    · exact entryWaits_awaitEnd entry _
  | waiting => exact entryWaits_awaitEnd entry f
  | ended failure => trivial

theorem Teardown.calm_pollEntries (entries : List (Tracked × EntryEnd)) (f : Fleet) :
    Fleet.Calm f (pollEntries f entries).1 := by
  induction entries generalizing f with
  | nil => exact .refl f
  | cons first entries ih => exact (calm_pollEntry f first.1 first.2).trans (ih _)

theorem Teardown.entryWaits_pollEntries (entries : List (Tracked × EntryEnd)) (f : Fleet) :
    ∀ entry ∈ (pollEntries f entries).2, EntryWaits (pollEntries f entries).1 entry.1 entry.2 := by
  induction entries generalizing f with
  | nil =>
    intro entry he
    cases he
  | cons first entries ih =>
    intro entry he
    rcases List.mem_cons.mp he with rfl | he
    · exact (entryWaits_pollEntry f first.1 first.2).calm (calm_pollEntries entries _)
    · exact ih _ entry he

theorem Teardown.waits_poll (t : Teardown) (f : Fleet) :
    (t.poll f).2.Leaves (Waits (t.poll f).1) := by
  have heach := entryWaits_pollEntries t.entries f
  unfold poll
  dsimp only
  split
  · exact .done
  next hover => exact .pending ⟨heach, by simpa using hover⟩

namespace Session

theorem waits_pollLine (process : ProcessId) (report : LineReport) (w : LineWait) (s : Session) :
    (pollLine process report w s).2.Leaves
      (Activity.Waits (pollLine process report w s).1.fleet) := by
  have hgoing : (pollLine process report w s).2 =
      (w.poll s.now (s.fleet.log process)).2.2.map (.line process report)
        (·.map (lineAnswer report)) := rfl
  rw [hgoing]
  refine Progress.leaves_map ?_
  cases hp : (w.poll s.now (s.fleet.log process)).2.2 with
  | done result => exact .done
  | pending rest =>
    obtain ⟨rfl, hreached, hlog⟩ := LineWait.pending_poll hp
    have hdrained : (rest.poll s.now (s.fleet.log process)).1.queue rest.queue = #[] := by
      rw [hlog]
      exact OutputLog.queue_drain _ _
    exact .pending ⟨Fleet.queue_setLog hdrained, hreached⟩

theorem waits_poll (a : Activity) (s : Session) :
    (poll a s).2.Leaves (Activity.Waits (poll a s).1.fleet) := by
  cases a with
  | line process report w => exact waits_pollLine process report w s
  | ending process report =>
    unfold poll pollEnd
    dsimp only
    split
    next hcode => exact .pending hcode
    · exact .done
  | tree tree =>
    refine Progress.leaves_map ?_
    have hnow : (poll (.tree tree) s).1.fleet.now = s.fleet.now :=
      (calls_poll (k := False) .refl (.tree tree)).carries.now
    have hquiet := Termination.leaves_poll tree s.fleet.scene
    unfold Activity.Waits
    rw [hnow]
    exact hquiet
  | stopping stopping => exact Progress.leaves_map (Stopping.waits_poll stopping s.fleet)
  | run run => exact Progress.leaves_map (BoundedRun.waits_poll run s.fleet)
  | teardown leaving teardown =>
    exact Progress.leaves_map (Teardown.waits_poll teardown s.fleet)

theorem fst_awaitEnd (x : Stopping) (f : Fleet) : (x.awaitEnd f).1 = f := by
  unfold Stopping.awaitEnd
  split <;> rfl

theorem processes_pollStopping (x : Stopping) (f : Fleet) :
    (x.poll f).1.processes = f.processes := by
  unfold Stopping.poll
  split
  · rw [fst_awaitEnd]
  · split
    · rfl
    · rfl
    · rw [fst_awaitEnd]

theorem processes_unregister (f : Fleet) (standing : ProcessId → Standing) (id : ProcessId) :
    (f.unregister standing id).1.processes = f.processes := by
  unfold Fleet.unregister
  split <;> rfl

theorem processes_requireSuccess (command : String) (code : Int) (output : String) (f : Fleet) :
    (requireSuccess command code output f).1.processes = f.processes := by
  unfold requireSuccess
  split <;> rfl

theorem processes_afterStopping (r : BoundedRun) (x : Fleet × Progress Stopping Stopping.Result) :
    (r.afterStopping x).1.processes = x.1.processes := by
  obtain ⟨g, stopping | ⟨failure | ⟨⟩⟩⟩ := x
  · rfl
  · rfl
  · unfold BoundedRun.afterStopping BoundedRun.giveUp
    cases r.tracked with
    | true => exact processes_unregister g _ _
    | false => rfl

theorem processes_pollRun (r : BoundedRun) (f : Fleet) : (r.poll f).1.processes = f.processes := by
  unfold BoundedRun.poll
  split
  · exact (processes_afterStopping r _).trans (processes_pollStopping _ f)
  · split
    · unfold BoundedRun.finish
      cases r.check with
      | true => exact processes_requireSuccess _ _ _ f
      | false => rfl
    · split
      · refine (processes_afterStopping r _).trans ?_
        unfold Stopping.start
        split
        · rfl
        · split
          · exact processes_pollStopping _ _
          · rfl
      · rfl

theorem calm_poll (a : Activity) (s : Session) : Fleet.Calm s.fleet (poll a s).1.fleet := by
  have hnow : (poll a s).1.fleet.now = s.fleet.now :=
    (calls_poll (k := False) .refl a).carries.now
  cases a with
  | line process report w =>
    have hcalm : Fleet.Calm s.fleet
        (s.fleet.setLog process (w.poll s.now (s.fleet.log process)).1) := by
      refine .setLog fun q hq => ?_
      rcases LineWait.poll_log w s.now (s.fleet.log process) with h | h
      · rw [h]
        exact OutputLog.queue_drain_empty hq
      · rw [h]
        exact OutputLog.queue_drain_empty hq
    exact hcalm.trans (.of_processes rfl rfl)
  | ending process report =>
    refine .of_processes hnow ?_
    unfold poll pollEnd
    dsimp only
    split
    · rfl
    · cases report with
      | output => rfl
      | code => rfl
      | checkedOutput command => exact processes_requireSuccess command _ _ s.fleet
  | tree tree => exact .of_processes hnow rfl
  | stopping stopping => exact .of_processes hnow (processes_pollStopping stopping s.fleet)
  | run run => exact .of_processes hnow (processes_pollRun run s.fleet)
  | teardown leaving teardown =>
    have hcalm : Fleet.Calm s.fleet (teardown.poll s.fleet).1 := by
      unfold Teardown.poll
      dsimp only
      split
      · exact (Teardown.calm_pollEntries _ s.fleet).trans (.of_processes rfl rfl)
      · exact Teardown.calm_pollEntries _ s.fleet
    exact hcalm

open Timeline

variable {t : Timeline Session Activity Result} {ch : ProcessId → Chronicle}

def Waiting (t : Timeline Session Activity Result) (task : TaskId) : Prop :=
  ∀ a, t.tasks[task]? = some (.pending (.act a)) → a.Waits t.state.fleet

theorem waiting_pollTask_self (t : Timeline Session Activity Result) (task : TaskId) :
    Waiting (pollTask machinery t task) task := by
  intro a ha
  obtain ⟨b, hb, hp⟩ | ⟨-, -, hn⟩ := pollTask_cases (m := machinery) t task
  · rw [hp] at ha ⊢
    dsimp only at ha ⊢
    rw [Array.getElem?_setIfInBounds_self_of_lt (Array.getElem?_eq_some_iff.mp hb).1] at ha
    have hrest : (poll b t.state).2 = .pending a := ofProgress_eq_act (Option.some.inj ha)
    have hwaits := waits_poll b t.state
    rw [hrest] at hwaits
    cases hwaits with
    | pending h => exact h
  · exact absurd ha (hn a)

theorem calm_pollTask (t : Timeline Session Activity Result) (task : TaskId) :
    Fleet.Calm t.state.fleet (pollTask machinery t task).state.fleet := by
  obtain ⟨b, -, hp⟩ | ⟨-, hs, -⟩ := pollTask_cases (m := machinery) t task
  · rw [hp]
    exact calm_poll b t.state
  · rw [hs]
    exact .refl _

theorem waiting_pollTask_of_ne {task other : TaskId} (hne : task ≠ other) (h : Waiting t other) :
    Waiting (pollTask machinery t task) other := by
  intro a ha
  rw [pollTask_of_ne hne] at ha
  exact (h a ha).calm (calm_pollTask t task)

theorem waiting_settle (t : Timeline Session Activity Result) (task : TaskId) :
    Waiting (settle machinery t) task := by
  by_cases hlt : task < t.tasks.size
  · exact settle_each (m := machinery) (P := fun _ => True) (Q := Waiting) (fun _ _ => trivial)
      (fun _ _ => trivial) (fun _ _ _ => trivial) (fun u task _ => waiting_pollTask_self u task)
      (fun _ _ _ _ => waiting_pollTask_of_ne) trivial task hlt
  · have hsize : (settle machinery t).tasks.size = t.tasks.size :=
      settle_induction (P := fun u => u.tasks.size = t.tasks.size) (fun _ hu => hu) (fun _ hu => hu)
        (fun u other hu => (size_pollTask u other).trans hu) rfl
    intro a ha
    exact absurd (hsize ▸ (Array.getElem?_eq_some_iff.mp ha).1) hlt

theorem still_move (h : Faithful t ch) (x : Move Command) :
    Still machinery (move machinery t x) := by
  have hafter := h.move x
  have hrested : (move machinery t x).state.fleet.Rested := fun id p c hv =>
    ⟨_, hafter.settled id p c hv⟩
  refine ⟨?_, ?_, fun id a ha => (waiting_settle _ id a ha).poll, fun id moment hm => ?_⟩
  · exact congrArg (fun fleet => { (move machinery t x).state with fleet })
      (hrested.readOutputs hafter.orderly.paired)
  · exact congrArg (fun fleet => { (move machinery t x).state with fleet })
      (hrested.watchEnds hafter.orderly.paired)
  · exact hafter.timely id _ hm moment rfl

theorem still_play {ch : ProcessId → Chronicle} (h : Faithful t ch) (x : Move Command)
    (moves : List (Move Command)) :
    Still machinery (play machinery (move machinery t x) moves) := by
  induction moves generalizing t x ch with
  | nil => exact still_move h x
  | cons y moves ih => exact ih (h.move x) y

section

variable {f : Fleet} {held other : ProcessId → Bool}

/-- Whether a process is held makes a difference only when its end has been reported. -/
theorem standing_congr (h : ∀ id, f.isRunning id = true ∨ held id = other id) :
    f.standing held = f.standing other := by
  funext id
  unfold Fleet.standing
  rcases h id with hrunning | heq
  · rw [if_pos hrunning, if_pos hrunning]
  · rw [heq]

theorem startTracked_congr (h : ∀ id, f.isRunning id = true ∨ held id = other id)
    (settings : Settings) (request : Request) (track : Bool) :
    f.startTracked settings held request track = f.startTracked settings other request track := by
  have hstarted : (f.start settings request).1.standing held =
      (f.start settings request).1.standing other := by
    refine standing_congr fun id => (h id).imp (fun hrunning => ?_) fun heq => heq
    unfold Fleet.isRunning at hrunning ⊢
    cases hp : f.process? id with
    | none =>
      rw [hp] at hrunning
      cases hrunning
    | some p =>
      rw [Fleet.process?_start_of_some settings request hp]
      rwa [hp] at hrunning
  unfold Fleet.startTracked
  split
  next hr => rfl
  next started id hr =>
    rw [hr] at hstarted
    rw [hstarted]

/-- A command begins in the same way beside others who hold the same processes, of those whose ends
have been reported. -/
theorem start_congr {s : Session} {peers others : List Activity}
    (h : ∀ id, s.fleet.isRunning id = true ∨ s.holds peers id = s.holds others id)
    (command : Command) : start peers command s = start others command s := by
  have hstanding := standing_congr h
  cases command with
  | start name request track => simp only [start, startCommand, startTracked_congr h]
  | run request limit check track => simp only [start, BoundedRun.start, startTracked_congr h]
  | register name => simp only [start, hstanding]
  | unregister name => simp only [start, hstanding]
  | entries => simp only [start, hstanding]
  | _ => rfl

end

variable {u : Timeline Session Activity Result} {id process : ProcessId}

theorem onlooker_ending (id : ProcessId) : machinery.Onlooker (.ending id .code) where
  poll s := by
    have hpoll : machinery.poll (.ending id .code) s = pollEnd id .code s := rfl
    rw [hpoll]
    unfold pollEnd
    cases s.fleet.exitCode? id with
    | none => exact .inl rfl
    | some code => exact .inr ⟨_, rfl⟩
  cancel _ := rfl
  wake := rfl

theorem mem_activities {a : Activity} :
    a ∈ t.activities ↔ ∃ task : TaskId, t.tasks[task]? = some (.pending (.act a)) := by
  unfold Timeline.activities
  rw [List.mem_filterMap]
  constructor
  · rintro ⟨x, hx, ha⟩
    obtain ⟨task, htask⟩ := List.mem_iff_getElem?.mp hx
    unfold Task.activity? at ha
    split at ha
    · obtain rfl := Option.some.inj ha
      exact ⟨task, by simpa using htask⟩
    · cases ha
  · rintro ⟨task, htask⟩
    exact ⟨_, Array.mem_toList_iff.mpr (Array.mem_of_getElem? htask), rfl⟩

theorem exitCode?_ne_none {f : Fleet} (hp : (f.process? id).isSome = true)
    (hrunning : f.isRunning id = false) : f.exitCode? id ≠ none := by
  obtain ⟨p, hp⟩ := Option.isSome_iff_exists.mp hp
  unfold Fleet.isRunning at hrunning
  unfold Fleet.exitCode?
  rw [hp] at hrunning ⊢
  have hsome := Supervised.isRunning_eq_false_iff.mp hrunning
  intro hnone
  rw [show p.exitCode? = none from hnone] at hsome
  cases hsome

/-- An activity that holds a process whose end has been reported is under way in both of two
timelines that differ in waits for the end. -/
theorem holds_of_alike (h : Alike (.ending id .code) t u) (hwaiting : ∀ task, Waiting t task)
    (hp : (t.state.fleet.process? id).isSome = true)
    (hrunning : t.state.fleet.isRunning process = false)
    (hheld : t.activities.any (·.holds process) = true) :
    u.activities.any (·.holds process) = true := by
  obtain ⟨a, ha, hholds⟩ := List.any_eq_true.mp hheld
  obtain ⟨task, htask⟩ := mem_activities.mp ha
  obtain ⟨y, hy, heq | ⟨hpassive, -⟩⟩ := h.task htask
  · exact List.any_eq_true.mpr ⟨a, mem_activities.mpr ⟨task, heq ▸ hy⟩, hholds⟩
  · cases hpassive with
    | looking =>
      obtain rfl : id = process := by simpa [Activity.holds] using hholds
      exact absurd (hwaiting task _ htask) (exitCode?_ne_none hp hrunning)

structure Parted (id : ProcessId) (t u : Timeline Session Activity Result) : Prop where
  alike : Alike (.ending id .code) t u
  left : (∃ ch, Faithful t ch) ∧ ∀ task, Waiting t task
  right : (∃ ch, Faithful u ch) ∧ ∀ task, Waiting u task
  process : (t.state.fleet.process? id).isSome = true

theorem Parted.starting (h : Parted id t u) : Alike.Starting machinery t u := by
  intro command
  refine start_congr (fun process => ?_) command
  cases hrunning : t.state.fleet.isRunning process with
  | true => exact .inl rfl
  | false =>
    refine .inr (congrArg (_ || ·) (Bool.eq_iff_iff.mpr ⟨fun hheld => ?_, fun hheld => ?_⟩))
    · have hstate := h.alike.state
      exact holds_of_alike h.alike.symm h.right.2 (hstate ▸ h.process) (hstate ▸ hrunning) hheld
    · exact holds_of_alike h.alike h.left.2 h.process hrunning hheld

/-- What is alike when a move has begun is alike when everything has settled. -/
theorem Parted.settle {x y : Move Command} (ht : ∃ ch, Faithful t ch) (hu : ∃ ch, Faithful u ch)
    (hp : (t.state.fleet.process? id).isSome = true)
    (h : Alike (.ending id .code) (stir machinery t x) (stir machinery u y)) :
    Parted id (move machinery t x) (move machinery u y) := by
  obtain ⟨ch, ht⟩ := ht
  obtain ⟨dh, hu⟩ := hu
  obtain ⟨p, hp⟩ := Option.isSome_iff_exists.mp hp
  obtain ⟨q, hq, -⟩ := Supervised.enduring_exited.later
    ((Later.refl (m := machinery) (t := t)).stir x).settle hp
  refine ⟨h.settle (onlooker_ending id) (still_move ht x) (still_move hu y),
    ⟨⟨_, ht.move x⟩, waiting_settle _⟩, ⟨⟨_, hu.move y⟩, waiting_settle _⟩, ?_⟩
  exact Option.isSome_iff_exists.mpr ⟨q, hq⟩

theorem Parted.play (h : Parted id t u) (moves : List (Move Command)) :
    Parted id (play machinery t moves) (play machinery u moves) := by
  induction moves generalizing t u with
  | nil => exact h
  | cons x moves ih =>
    exact ih (.settle h.left.1 h.right.1 h.process (h.alike.stir (onlooker_ending id) h.starting x))

/-- To cancel a wait for the end of a process makes no difference to the session at any later
time. -/
theorem state_play_cancel (h : Faithful t ch) {caller nobody : String} {task : TaskId}
    (hcaller : t.names.lookup caller = some task)
    (htask : t.tasks[task]? = some (.pending (.act (.ending id .code))))
    (hp : (t.state.fleet.process? id).isSome = true) (hnobody : t.names.lookup nobody = none)
    (moves : List (Move Command)) :
    (Timeline.play machinery t (.begin (.cancel caller) :: moves)).state =
      (Timeline.play machinery t (.begin (.cancel nobody) :: moves)).state := by
  have hcancel := alike_cancel (onlooker_ending id) hcaller htask hnobody
  have hparted : Parted id (move machinery t (.begin (.cancel caller)))
      (move machinery t (.begin (.cancel nobody))) := .settle ⟨ch, h⟩ ⟨ch, h⟩ hp hcancel
  exact (hparted.play moves).alike.state.symm

end Session

end

end Overseer
