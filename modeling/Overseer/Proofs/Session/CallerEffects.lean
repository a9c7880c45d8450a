import Overseer.Proofs.OutputLog.Subscription
import Overseer.Proofs.Timeline.Moves
import Overseer.Session

/-!
# What callers do to a fleet

Whatever activities go on in a session, they do no more to its fleet than signal processes, take and
give up subscriptions, change the registry, make reports and start processes (`Fleet.Calls`). What
these few things leave alone, all activities leave alone.
-/

namespace Overseer

open Overseer.Tree World

def Unechoed (notes : List Note) : Prop := ∀ note ∈ notes, note.level ≠ .info

theorem unechoed_nil : Unechoed [] := by simp [Unechoed]

theorem unechoed_singleton {note : Note} (h : note.level ≠ .info) : Unechoed [note] := by
  simpa [Unechoed] using h

theorem unechoed_cons {note : Note} {notes : List Note} (h : note.level ≠ .info)
    (hs : Unechoed notes) : Unechoed (note :: notes) := List.forall_mem_cons.mpr ⟨h, hs⟩

structure Supervised.Fresh (p : Supervised) : Prop where
  lines : p.log.lines = #[]
  closed : p.log.closed = false
  splitter : p.splitter = { decoder := {} }
  phase : p.phase = .running

namespace Fleet

def withSystem (f : Fleet) (system : System) : Fleet := { f with scene := { f.scene with system } }

/-- What callers do to a registry: they track a process, stop tracking one, or take all entries. -/
inductive Reregisters (f : Fleet) : Registry → Prop where
  | register {id : ProcessId} {p : Supervised} (standing : ProcessId → Standing) :
      f.process? id = some p → Reregisters f (f.registry.register standing (entryOf p id)).1
  | unregister (standing : ProcessId → Standing) (pid : Int) (id : ProcessId) :
      Reregisters f (f.registry.unregister standing pid id).1
  | clear : Reregisters f {}

/-- What a fleet comes to by what callers do. Processes are started only where `starting` says so.
-/
inductive Calls (starting : Prop) (f : Fleet) : Fleet → Prop where
  | refl : Calls starting f f
  | report {g} {notes : List Note} : Calls starting f g → Unechoed notes →
      Calls starting f (g.report notes)
  | signalProcess {g} (p : ProcessRef) (signal : Signal) : Calls starting f g →
      Calls starting f (g.withSystem (g.scene.system.signalProcess p signal).1)
  | signalGroup {g} (pgid : Int) (signal : Signal) : Calls starting f g →
      Calls starting f (g.withSystem (g.scene.system.signalGroup pgid signal).1)
  | setLog {g} {id : ProcessId} {log : OutputLog} : Calls starting f g →
      log.lines = (g.log id).lines → log.closed = (g.log id).closed →
      Calls starting f (g.setLog id log)
  | registry {g} {registry : Registry} : Calls starting f g → g.Reregisters registry →
      Calls starting f { g with registry }
  | start {g} (settings : Settings) (request : Request) : starting → Calls starting f g →
      Calls starting f (g.start settings request).1

/-- What comes of a request to start a process: nothing, a failed attempt to spawn, or a process. -/
theorem start_cases (f : Fleet) (settings : Settings) (request : Request) :
    (f.start settings request).1 = f ∨
    ∃ launch, (∃ reason, (f.scene.system.spawn launch).2 = .error reason ∧
        (f.start settings request).1 = f.withSystem (f.scene.system.spawn launch).1) ∨
      ∃ p notes, (f.scene.system.spawn launch).2 = .ok p.child ∧ p.Fresh ∧
        p.reader = Supervised.firstReader (f.scene.system.spawn launch).1 p.child ∧
        Unechoed notes ∧
        (f.start settings request).1 =
          { f.withSystem (f.scene.system.spawn launch).1 with
            processes := f.processes.push p }.report notes := by
  unfold start
  dsimp only
  split
  · exact .inl rfl
  next launch hl =>
    unfold Supervised.spawn
    by_cases hd : f.scene.system.dirs.contains launch.cwd = true
    · rw [if_pos hd]
      refine .inr ⟨launch, ?_⟩
      rcases hr : f.scene.system.spawn launch with ⟨system, reason | child⟩
      · exact .inl ⟨reason, rfl, rfl⟩
      · exact .inr ⟨_, [Supervised.startedNote (system.pidOf child) launch], rfl,
          ⟨rfl, rfl, rfl, rfl⟩, rfl, unechoed_singleton nofun, rfl⟩
    · rw [if_neg hd]
      exact .inl rfl

end Fleet

section

variable {k : Prop} {f g : Fleet} {s : Scene}

open Fleet

theorem calls_scene_report {notes : List Note} (h : Calls k f { g with scene := s })
    (hn : Unechoed notes) : Calls k f { g with scene := s.report notes } :=
  Calls.report h hn

theorem calls_signalGroup (h : Calls k f { g with scene := s }) (pgid : Int) (signal : Signal) :
    Calls k f { g with scene := Tree.signalGroup s pgid signal } := by
  have hs := Calls.signalGroup pgid signal h
  unfold Tree.signalGroup
  rcases ho : s.system.signalGroup pgid signal with ⟨system, outcome⟩
  change Calls k f
    { g with scene := { s with system := (s.system.signalGroup pgid signal).1 } } at hs
  rw [ho] at hs
  dsimp only
  split
  · exact calls_scene_report hs (unechoed_singleton nofun)
  · exact hs
  · split
    · exact hs
    · exact calls_scene_report hs (unechoed_singleton nofun)

theorem calls_signalOne (h : Calls k f { g with scene := s }) (signal : Signal) (p : ProcessRef) :
    Calls k f { g with scene := signalOne signal s p } := by
  have hs := Calls.signalProcess p signal h
  unfold signalOne
  rcases ho : s.system.signalProcess p signal with ⟨system, outcome⟩
  change Calls k f
    { g with scene := { s with system := (s.system.signalProcess p signal).1 } } at hs
  rw [ho] at hs
  dsimp only
  split
  · exact hs
  · exact hs
  · exact calls_scene_report hs (unechoed_singleton nofun)

theorem calls_signalAll (h : Calls k f { g with scene := s }) (pid : Int) (ps : List ProcessRef)
    (signal : Signal) : Calls k f { g with scene := signalAll s pid ps signal } := by
  have hall : ∀ (ps : List ProcessRef) (s : Scene), Calls k f { g with scene := s } →
      Calls k f { g with scene := ps.foldl (signalOne signal) s } := by
    intro ps
    induction ps with
    | nil => exact fun s hs => hs
    | cons p ps ih => exact fun s hs => ih _ (calls_signalOne hs signal p)
  unfold signalAll
  refine hall ps _ ?_
  split
  · exact h
  · exact calls_signalGroup h pid signal

namespace Tree.Termination

theorem calls_giveUp (h : Calls k f { g with scene := s }) (t : Termination)
    (alive : List ProcessRef) : Calls k f { g with scene := (t.giveUp alive s).1 } :=
  calls_scene_report h (unechoed_singleton nofun)

theorem calls_lookAtKilled (h : Calls k f { g with scene := s }) (t : Termination)
    (alive : List ProcessRef) (deadline : Option Instant) :
    Calls k f { g with scene := (t.lookAtKilled alive deadline s).1 } := by
  unfold lookAtKilled
  split
  · exact h
  · exact h
  · split
    · exact calls_giveUp h t _
    · exact h

theorem calls_kill (h : Calls k f { g with scene := s }) (t : Termination)
    (alive : List ProcessRef) : Calls k f { g with scene := (t.kill alive s).1 } := by
  unfold kill
  refine calls_lookAtKilled (calls_signalAll (calls_scene_report h ?_) t.pid alive .kill) t _ _
  exact unechoed_singleton nofun

theorem calls_lookAtAsked (h : Calls k f { g with scene := s }) (t : Termination)
    (alive : List ProcessRef) (deadline : Option Instant) :
    Calls k f { g with scene := (t.lookAtAsked alive deadline s).1 } := by
  unfold lookAtAsked
  split
  · exact h
  · exact calls_scene_report h (unechoed_singleton nofun)
  · split
    · exact calls_kill h t _
    · exact h

theorem unechoed_members (w : System) (pid : Int) : Unechoed (members w pid).2 := by
  have hfamily : Unechoed (rootFamily w pid).2 := by
    unfold rootFamily
    split
    · exact unechoed_nil
    · exact unechoed_singleton nofun
    · split
      · exact unechoed_nil
      · exact unechoed_nil
      · split
        · exact unechoed_nil
        · exact unechoed_nil
        · exact unechoed_singleton nofun
  unfold members
  split
  next failure notes hr =>
    rw [hr] at hfamily
    exact hfamily
  next found notes hr =>
    rw [hr] at hfamily
    exact hfamily

theorem calls_start (h : Calls k f { g with scene := s }) (t : Termination) :
    Calls k f { g with scene := (t.start s).1 } := by
  have hm := unechoed_members s.system t.pid
  unfold start
  rcases hf : members s.system t.pid with ⟨found, notes⟩
  rw [hf] at hm
  have hs := calls_scene_report h hm
  dsimp only
  split
  · exact hs
  · exact calls_scene_report hs (unechoed_singleton nofun)
  · refine calls_lookAtAsked (calls_signalAll (calls_scene_report hs ?_) t.pid _ .term) t _ _
    exact unechoed_singleton nofun

theorem calls_keepVigil (h : Calls k f { g with scene := s }) (t : Termination) (v : Vigil) :
    Calls k f { g with scene := (t.keepVigil v s).1 } := by
  unfold keepVigil
  split
  · cases v.stage with
    | asked => exact calls_kill h t _
    | killed => exact calls_giveUp h t _
  · split
    · cases v.stage with
      | asked => exact calls_lookAtAsked h t _ _
      | killed => exact calls_lookAtKilled h t _ _
    · exact h

theorem calls_poll (h : Calls k f { g with scene := s }) (t : Termination) :
    Calls k f { g with scene := (t.poll s).1 } := by
  unfold poll
  split
  · exact calls_start h t
  · exact calls_keepVigil h t _

end Tree.Termination

theorem Fleet.calls_register (h : Calls k f g) (standing : ProcessId → Standing) (id : ProcessId) :
    Calls k f (g.register standing id) := by
  unfold Fleet.register
  split
  · exact h
  next p hp =>
    refine (h.registry (.register standing hp)).report ?_
    split
    · split
      · exact unechoed_nil
      · exact unechoed_cons nofun (unechoed_singleton nofun)
    · exact unechoed_singleton nofun

theorem Fleet.calls_unregister (h : Calls k f g) (standing : ProcessId → Standing)
    (id : ProcessId) : Calls k f (g.unregister standing id).1 := by
  unfold Fleet.unregister
  split
  · exact h
  next p hp =>
    refine (h.registry (.unregister standing p.pid id)).report ?_
    unfold Registry.unregister
    split
    · split
      · exact unechoed_singleton nofun
      · exact unechoed_nil
    · exact unechoed_nil

theorem Fleet.calls_startTracked (hk : k) (h : Calls k f g) (settings : Settings)
    (held : ProcessId → Bool) (request : Request) (track : Bool) :
    Calls k f (g.startTracked settings held request track).1 := by
  have hs := h.start settings request hk
  unfold Fleet.startTracked
  split
  next started failure hr =>
    rw [hr] at hs
    exact hs
  next started id hr =>
    rw [hr] at hs
    cases track with
    | true => exact calls_register hs _ id
    | false => exact hs

theorem calls_requireSuccess (h : Calls k f g) (command : String) (code : Int) (output : String) :
    Calls k f (requireSuccess command code output g).1 := by
  unfold requireSuccess
  split
  · exact h
  · exact h.report (unechoed_singleton nofun)

theorem Stopping.calls_awaitEnd (h : Calls k f g) (s : Stopping) :
    Calls k f (s.awaitEnd g).1 := by
  unfold awaitEnd
  split
  · exact h
  · exact h

theorem Stopping.calls_poll (h : Calls k f g) (s : Stopping) : Calls k f (s.poll g).1 := by
  unfold poll
  split
  · exact calls_awaitEnd h s
  next tree ht =>
    have hp := Termination.calls_poll (s := g.scene) h tree
    split <;> rename_i hr <;> rw [hr] at hp
    · exact hp
    · exact hp
    · exact calls_awaitEnd hp s

theorem Stopping.calls_start (h : Calls k f g) (process : ProcessId) :
    Calls k f (Stopping.start process g).1 := by
  unfold Stopping.start
  split
  · exact h
  · split
    · exact calls_poll h _
    · exact h

namespace BoundedRun

theorem calls_giveUp (h : Calls k f g) (r : BoundedRun) : Calls k f (r.giveUp g).1 := by
  unfold giveUp
  cases r.tracked with
  | true => exact calls_unregister h _ r.process
  | false => exact h

theorem calls_afterStopping (r : BoundedRun) {x : Fleet × Progress Stopping Stopping.Result}
    (h : Calls k f x.1) : Calls k f (r.afterStopping x).1 := by
  obtain ⟨g, stopping | ⟨failure | ⟨⟩⟩⟩ := x
  · exact h
  · exact h
  · exact calls_giveUp h r

theorem calls_finish (h : Calls k f g) (r : BoundedRun) (code : Int) :
    Calls k f (r.finish code g).1 := by
  unfold finish
  cases r.check with
  | true => exact calls_requireSuccess h _ _ _
  | false => exact h

theorem calls_poll (h : Calls k f g) (r : BoundedRun) : Calls k f (r.poll g).1 := by
  unfold poll
  split
  · exact calls_afterStopping r (Stopping.calls_poll h _)
  · split
    · exact calls_finish h r _
    · split
      · refine calls_afterStopping r (Stopping.calls_start (h.report ?_) r.process)
        exact unechoed_singleton nofun
      · exact h

theorem calls_start (hk : k) (h : Calls k f g) (settings : Settings) (held : ProcessId → Bool)
    (request : Request) (limit : Option Number.Seconds) (check track : Bool) :
    Calls k f (BoundedRun.start settings held request limit check track g).1 := by
  have hs := calls_startTracked hk h settings held request track
  unfold BoundedRun.start
  split <;> rename_i hr <;> rw [hr] at hs
  · exact hs
  · exact calls_poll hs _

end BoundedRun

namespace Teardown

theorem calls_pollEntry (h : Calls k f g) (entry : Tracked) (sofar : EntryEnd) :
    Calls k f (pollEntry g entry sofar).1 := by
  cases sofar with
  | ending tree =>
    have hp := Termination.calls_poll (s := g.scene) h tree
    rw [pollEntry]
    split <;> rename_i hr <;> rw [hr] at hp
    · exact hp
    · exact hp
    · exact hp
  | waiting => exact h
  | ended failure => exact h

theorem calls_pollEntries (entries : List (Tracked × EntryEnd)) (h : Calls k f g) :
    Calls k f (pollEntries g entries).1 := by
  induction entries generalizing g with
  | nil => exact h
  | cons entry entries ih => exact ih (calls_pollEntry h entry.1 entry.2)

theorem unechoed_failures (entries : List (Tracked × EntryEnd)) :
    Unechoed (entries.filterMap failureNote?) := by
  intro note hn
  obtain ⟨⟨entry, sofar⟩, -, he⟩ := List.mem_filterMap.mp hn
  unfold failureNote? at he
  split at he
  · obtain rfl := Option.some.inj he
    nofun
  · cases he

theorem calls_poll (h : Calls k f g) (t : Teardown) : Calls k f (t.poll g).1 := by
  have hp := calls_pollEntries t.entries h
  unfold poll
  dsimp only
  split
  · exact hp.report (unechoed_failures _)
  · exact hp

theorem calls_start (h : Calls k f g) (termLimit killLimit : Number.Seconds) :
    Calls k f (Teardown.start termLimit killLimit g).1 := by
  unfold Teardown.start
  split
  · exact h
  · refine calls_poll ((h.registry .clear).report ?_) _
    exact unechoed_singleton nofun

end Teardown

namespace Session

/-- A session at its beginning: nothing has been started, and there are only some processes that
belong to nobody. -/
def afresh (s : Session) (w : System) (others : List Birth) : Session :=
  { s with
    fleet :=
      { scene := .opening { w with table := [], agenda := [], children := #[], endings := #[] }
          others } }

theorem unechoed_poll (w : LineWait) (now : Instant) (log : OutputLog) :
    Unechoed (w.poll now log).2.1 := by
  unfold LineWait.poll
  dsimp only
  split
  · exact unechoed_nil
  · split
    · exact unechoed_singleton nofun
    · exact unechoed_nil

theorem calls_pollLine {s : Session} (h : Calls k f s.fleet) (process : ProcessId)
    (report : LineReport) (w : LineWait) : Calls k f (pollLine process report w s).1.fleet :=
  (h.setLog (LineWait.lines_poll w s.now _) (LineWait.closed_poll w s.now _)).report
    (unechoed_poll w s.now _)

theorem calls_startLine {s : Session} (h : Calls k f s.fleet) (process : ProcessId)
    (report : LineReport) (pattern : PatternText) (limit : Number.Seconds) :
    Calls k f (startLine process report pattern limit s).1.fleet := by
  unfold startLine
  split
  · exact h
  · exact calls_pollLine (s := { s with fleet := _ })
      (h.setLog (OutputLog.lines_subscribe _) (OutputLog.closed_subscribe _)) process report _

theorem calls_pollEnd {s : Session} (h : Calls k f s.fleet) (process : ProcessId)
    (report : EndReport) : Calls k f (pollEnd process report s).1.fleet := by
  unfold pollEnd
  split
  · exact h
  · cases report with
    | output => exact h
    | code => exact h
    | checkedOutput command => exact calls_requireSuccess h command _ _

theorem calls_pollTree {s : Session} (h : Calls k f s.fleet) (tree : Termination) :
    Calls k f (pollTree tree s).1.fleet :=
  Termination.calls_poll h tree

theorem calls_poll {s : Session} (h : Calls k f s.fleet) (activity : Activity) :
    Calls k f (poll activity s).1.fleet := by
  cases activity with
  | line process report w => exact calls_pollLine h process report w
  | ending process report => exact calls_pollEnd h process report
  | tree tree => exact calls_pollTree h tree
  | stopping stopping => exact Stopping.calls_poll h stopping
  | run run => exact BoundedRun.calls_poll h run
  | teardown leaving teardown => exact Teardown.calls_poll h teardown

theorem calls_cancel {s : Session} (h : Calls k f s.fleet) (activity : Activity) :
    Calls k f (cancel activity s).fleet := by
  cases activity with
  | line process report w =>
    exact h.setLog (OutputLog.lines_unsubscribe _ _) (OutputLog.closed_unsubscribe _ _)
  | _ => exact h

theorem calls_withHandle {s : Session} (h : Calls k f s.fleet) (name : String)
    {act : Handle → Going} (hact : ∀ handle, Calls k f (act handle).1.fleet) :
    Calls k f (s.withHandle name act).1.fleet := by
  unfold withHandle
  split
  · exact hact _
  · exact h

theorem calls_startCommand (hk : k) {s : Session} (h : Calls k f s.fleet) (peers : List Activity)
    (name : String) (request : Request) (track : Bool) :
    Calls k f (s.startCommand peers name request track).1.fleet := by
  have hs := calls_startTracked hk h s.settings (s.holds peers) (s.placed request)
    (track || s.home.isSome)
  unfold startCommand
  split <;> rename_i hr <;> rw [hr] at hs
  · exact hs
  · exact hs

theorem calls_start (hk : k) {s : Session} (h : Calls k f s.fleet) (peers : List Activity)
    (command : Command) : Calls k f (start peers command s).1.fleet := by
  cases command with
  | start name request track => exact calls_startCommand hk h peers name request track
  | run request limit check track =>
    exact BoundedRun.calls_start hk h s.settings _ request limit check track
  | killTree pid termLimit killLimit => exact calls_pollTree h _
  | teardown => exact Teardown.calls_start h _ _
  | leave => exact Teardown.calls_start h _ _
  | entries => exact h
  | alive => exact h
  | readLine name pattern limit => exact calls_withHandle h name fun _ => calls_startLine h _ _ _ _
  | attach name pattern limit => exact calls_withHandle h name fun _ => calls_startLine h _ _ _ _
  | ready name limit => exact calls_withHandle h name fun _ => calls_startLine h _ _ _ _
  | reload name limit => exact calls_withHandle h name fun _ => calls_startLine h _ _ _ _
  | finalOutput name => exact calls_withHandle h name fun _ => calls_pollEnd h _ _
  | complete name => exact calls_withHandle h name fun _ => calls_pollEnd h _ _
  | wait name => exact calls_withHandle h name fun _ => calls_pollEnd h _ _
  | kill name => exact calls_withHandle h name fun _ => Stopping.calls_start h _
  | register name => exact calls_withHandle h name fun _ => calls_register h _ _
  | unregister name => exact calls_withHandle h name fun _ => calls_unregister h _ _
  | wrap name source command readLimit => exact calls_withHandle h source fun _ => h
  | output name => exact calls_withHandle h name fun _ => h
  | state name => exact calls_withHandle h name fun _ => h
  | drop name => exact calls_withHandle h name fun _ => h

open Timeline

theorem calls_cancelTask {t : Timeline Session Activity Result} (h : Calls k f t.state.fleet)
    (task : TaskId) : Calls k f (cancelTask machinery t task).1.state.fleet := by
  rcases cancelTask_state (m := machinery) t task with ⟨a, -, hs⟩ | hs
  · rw [hs]
    exact calls_cancel h a
  · rw [hs]
    exact h

theorem calls_launch (t : Timeline Session Activity Result) (step : Step Command) :
    Calls True t.state.fleet (launch machinery t step).state.fleet :=
  launch_induction (m := machinery)
    (P := fun u : Timeline Session Activity Result => Calls True t.state.fleet u.state.fleet)
    (fun _ _ _ hu => hu) (fun _ _ hu => hu) (fun _ task hu => calls_cancelTask hu task)
    (fun u command hu => calls_start trivial hu u.activities command) .refl step

theorem calls_pollTask (t : Timeline Session Activity Result) (task : TaskId) :
    Calls False t.state.fleet (pollTask machinery t task).state.fleet := by
  obtain ⟨a, -, hp⟩ | ⟨-, hs, -⟩ := pollTask_cases (m := machinery) t task
  · rw [hp]
    exact calls_poll .refl a
  · rw [hs]
    exact .refl

end Session

end

end Overseer
