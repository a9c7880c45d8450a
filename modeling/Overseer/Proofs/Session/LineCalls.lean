import Overseer.Proofs.Session.Handles
import Overseer.Proofs.Supervision.Hearing

/-!
# Calls that wait for a line

Four commands wait for a line of a process (`Session.lineCall?`), and only they and what they leave
under way do anything with the queues of a log. So at every time each call has a queue of its own in
the log of its process (`Session.Tidy`), and what is done for one call leaves the queues of the
others alone. -/

namespace Overseer

open OutputLog World

namespace Fleet

variable {f g : Fleet} {id other : ProcessId} {log : OutputLog} {p : QueueId → Prop}

theorem log_of_processes (h : g.processes = f.processes) (id : ProcessId) :
    g.log id = f.log id := by
  rw [Fleet.log, Fleet.log, process?, process?, h]

/-- A process that is started has an empty log, as one that does not exist. -/
theorem log_start_eq (f : Fleet) (settings : Settings) (request : Request) (id : ProcessId) :
    (f.start settings request).1.log id = f.log id := by
  unfold start
  dsimp only
  split
  · rfl
  next launch _ =>
    unfold Supervised.spawn
    by_cases hd : f.scene.system.dirs.contains launch.cwd = true
    · rw [if_pos hd]
      rcases f.scene.system.spawn launch with ⟨system, reason | child⟩
      · rfl
      · unfold Fleet.log process?
        dsimp only
        rw [Array.getElem?_push]
        split
        next he => rw [he, Array.getElem?_size]; rfl
        · rfl
    · rw [if_neg hd]

theorem log_register (f : Fleet) (standing : ProcessId → Standing) (tracked id : ProcessId) :
    (f.register standing tracked).log id = f.log id := by
  unfold Fleet.register
  split <;> rfl

theorem log_startTracked (f : Fleet) (settings : Settings) (held : ProcessId → Bool)
    (request : Request) (track : Bool) (id : ProcessId) :
    (f.startTracked settings held request track).1.log id = f.log id := by
  have hstart := log_start_eq f settings request id
  unfold startTracked
  split
  next hs => rwa [hs] at hstart
  next started new hs =>
    rw [hs] at hstart
    cases track with
    | true => exact (log_register started _ new id).trans hstart
    | false => exact hstart

/-- What is set in place of the log of one process is done with that log, and with no other one. -/
theorem use_setLog (h : id = other → Use p (f.log id) log) :
    Use p (f.log other) ((f.setLog id log).log other) := by
  unfold Fleet.log at h ⊢
  rw [process?_setLog]
  by_cases he : id = other
  · subst he
    rw [if_pos rfl]
    cases hp : f.process? id with
    | none => exact .refl
    | some x =>
      rw [hp] at h
      exact h rfl
  · rw [if_neg he]
    exact .refl

/-- What is done with the logs of the processes that exist is done with all. -/
theorem use_of_size (hsize : g.processes.size = f.processes.size)
    (h : (f.process? id).isSome = true → Use p (f.log id) (g.log id)) :
    Use p (f.log id) (g.log id) := by
  by_cases hp : (f.process? id).isSome = true
  · exact h hp
  · have hle : f.processes.size ≤ id := by simpa [process?] using hp
    have hnone : g.process? id = none := Array.getElem?_eq_none (hsize.symm ▸ hle)
    rw [Fleet.log, Fleet.log, hnone, Option.not_isSome_iff_eq_none.mp hp]
    exact .refl

end Fleet

theorem Teardown.processes_pollEntry (f : Fleet) (entry : Tracked) (sofar : EntryEnd) :
    (pollEntry f entry sofar).1.processes = f.processes := by
  cases sofar with
  | ending tree =>
    rw [pollEntry]
    split <;> rfl
  | waiting => rfl
  | ended failure => rfl

theorem Teardown.processes_pollEntries (entries : List (Tracked × EntryEnd)) (f : Fleet) :
    (pollEntries f entries).1.processes = f.processes := by
  induction entries generalizing f with
  | nil => rfl
  | cons first entries ih => exact (ih _).trans (processes_pollEntry f first.1 first.2)

theorem Teardown.processes_poll (t : Teardown) (f : Fleet) :
    (t.poll f).1.processes = f.processes := by
  unfold Teardown.poll
  dsimp only
  split
  · exact processes_pollEntries t.entries f
  · exact processes_pollEntries t.entries f

theorem Teardown.processes_begin (termLimit killLimit : Number.Seconds) (f : Fleet) :
    (Teardown.start termLimit killLimit f).1.processes = f.processes := by
  unfold Teardown.start
  split
  · rfl
  · exact processes_poll _ _

namespace Session

open Timeline

variable {s : Session} {peers : List Activity} {command : Command} {a : Activity}
  {id : ProcessId} {report : LineReport} {w : LineWait} {p : QueueId → Prop}

def listens : Progress Activity Result → Bool
  | .pending (.line _ _ _) => true
  | _ => false

theorem listens_map {α β : Type} {progress : Progress α β} {activity : α → Activity}
    {answer : β → Result} (h : ∀ x, listens (.pending (activity x)) = false) :
    listens (progress.map activity answer) = false := by
  cases progress with
  | pending x => exact h x
  | done value => rfl

theorem listens_pollEnd (process : ProcessId) (report : EndReport) :
    listens (pollEnd process report s).2 = false := by
  unfold pollEnd
  split <;> rfl

theorem processes_pollEnd (process : ProcessId) (report : EndReport) (s : Session) :
    (pollEnd process report s).1.fleet.processes = s.fleet.processes := by
  unfold pollEnd
  split
  · rfl
  · cases report with
    | output => rfl
    | code => rfl
    | checkedOutput command => exact processes_requireSuccess command _ _ s.fleet

theorem use_pollLine (process : ProcessId) (report : LineReport) (w : LineWait)
    (h : process = id → p w.queue) :
    Use p (s.fleet.log id) ((pollLine process report w s).1.fleet.log id) :=
  Fleet.use_setLog fun he => LineWait.use_poll .refl (h he) s.now

/-- An activity that goes on does nothing with the queues of a log, but for that of its own call. -/
theorem use_poll (h : ∀ report w, a = .line id report w → p w.queue) :
    Use p (s.fleet.log id) ((poll a s).1.fleet.log id) := by
  have hsame : (poll a s).1.fleet.processes = s.fleet.processes →
      Use p (s.fleet.log id) ((poll a s).1.fleet.log id) := by
    intro hp
    rw [Fleet.log_of_processes hp]
    exact .refl
  cases a with
  | line process report w => exact use_pollLine process report w fun he => h report w (he ▸ rfl)
  | ending process report => exact hsame (processes_pollEnd process report s)
  | tree tree => exact hsame rfl
  | stopping x => exact hsame (processes_pollStopping x s.fleet)
  | run r => exact hsame (processes_pollRun r s.fleet)
  | teardown leaving t => exact hsame (t.processes_poll s.fleet)

theorem line_of_poll (h : (poll a s).2 = .pending (.line id report w)) : a = .line id report w := by
  have hlistens : listens (poll a s).2 = true := congrArg listens h
  cases a with
  | line process asked v =>
    change (v.poll s.now (s.fleet.log process)).2.2.map _ _ = _ at h
    cases hp : (v.poll s.now (s.fleet.log process)).2.2 with
    | done result =>
      rw [hp] at h
      cases h
    | pending rest =>
      obtain ⟨rfl, -, -⟩ := LineWait.pending_poll hp
      rw [hp] at h
      exact Progress.pending.inj h
  | ending process report => cases (listens_pollEnd process report).symm.trans hlistens
  | tree tree => cases (listens_map fun _ => rfl).symm.trans hlistens
  | stopping x => cases (listens_map fun _ => rfl).symm.trans hlistens
  | run r => cases (listens_map fun _ => rfl).symm.trans hlistens
  | teardown leaving t => cases (listens_map fun _ => rfl).symm.trans hlistens

theorem use_cancel (h : ∀ report w, a = .line id report w → p w.queue) :
    Use p (s.fleet.log id) ((cancel a s).fleet.log id) := by
  cases a with
  | line process report w =>
    exact Fleet.use_setLog fun he => Use.refl.unsubscribe (h report w (he ▸ rfl))
  | _ => exact .refl

/-- A call that waits for a line: of which process, what it answers, for what and how long. -/
structure LineCall where
  process : ProcessId
  report : LineReport
  pattern : PatternText
  limit : Number.Seconds

def lineCall? (s : Session) : Command → Option LineCall
  | .readLine name pattern limit =>
    (s.handle? name).map fun h => ⟨h.process, .whole, pattern, limit.getD h.readLimit⟩
  | .attach name pattern limit =>
    (s.handle? name).map fun h => ⟨h.process, .groups, pattern, limit.getD h.readLimit⟩
  | .ready name limit =>
    (s.handle? name).map fun h =>
      ⟨h.process, .groups, readyPattern, limit.getD s.settings.readyTimeout⟩
  | .reload name limit =>
    (s.handle? name).map fun h => ⟨h.process, .nothing, reloadPattern, limit.getD h.readLimit⟩
  | _ => none

theorem start_withHandle {call : LineCall} {name : String} {called : Handle → LineCall}
    {act : Handle → Going} (h : (s.handle? name).map called = some call)
    (hprocess : ∀ h, (called h).process = h.process)
    (hact : ∀ h, act h = startLine (called h).process (called h).report (called h).pattern
      (called h).limit s) :
    s.withHandle name act = startLine call.process call.report call.pattern call.limit s ∧
      s.Hands call.process := by
  obtain ⟨handle, hh, rfl⟩ := Option.map_eq_some_iff.mp h
  rw [withHandle, hh]
  exact ⟨hact handle, (hprocess handle).symm ▸ hands_of_handle? hh⟩

/-- A command that waits for a line has a handle to the process, and does nothing else. -/
theorem start_lineCall {call : LineCall} (peers : List Activity)
    (h : s.lineCall? command = some call) :
    start peers command s = startLine call.process call.report call.pattern call.limit s ∧
      s.Hands call.process := by
  cases command with
  | readLine name pattern limit => exact start_withHandle h (fun _ => rfl) (fun _ => rfl)
  | attach name pattern limit => exact start_withHandle h (fun _ => rfl) (fun _ => rfl)
  | ready name limit => exact start_withHandle h (fun _ => rfl) (fun _ => rfl)
  | reload name limit => exact start_withHandle h (fun _ => rfl) (fun _ => rfl)
  | _ => cases h

structure Silent (s : Session) (going : Going) : Prop where
  log : ∀ id, going.1.fleet.log id = s.fleet.log id
  listens : listens going.2 = false

theorem Silent.of_processes {going : Going} (h : going.1.fleet.processes = s.fleet.processes)
    (hl : Session.listens going.2 = false) : Silent s going :=
  ⟨Fleet.log_of_processes h, hl⟩

theorem silent_withHandle {name : String} {act : Handle → Going}
    (h : ∀ handle, s.handle? name = some handle → Silent s (act handle)) :
    Silent s (s.withHandle name act) := by
  unfold withHandle
  cases hh : s.handle? name with
  | some handle => exact h handle hh
  | none => exact .of_processes rfl rfl

theorem silent_run (request : Request) (limit : Option Number.Seconds) (check track : Bool)
    (held : ProcessId → Bool) :
    Silent s (s.goOnRun (BoundedRun.start s.settings held request limit check track s.fleet)) := by
  refine ⟨fun id => ?_, listens_map fun _ => rfl⟩
  have hlog := Fleet.log_startTracked s.fleet s.settings held request track id
  change (BoundedRun.start s.settings held request limit check track s.fleet).1.log id = _
  unfold BoundedRun.start
  split <;> rename_i hs <;> rw [hs] at hlog
  · exact hlog
  · exact (Fleet.log_of_processes (processes_pollRun _ _) id).trans hlog

theorem silent_startCommand (name : String) (request : Request) (track : Bool) :
    Silent s ((s.startCommand peers name request track).1,
      .done (s.startCommand peers name request track).2) := by
  refine ⟨fun id => ?_, rfl⟩
  have hlog := Fleet.log_startTracked s.fleet s.settings (s.holds peers) (s.placed request)
    (track || s.home.isSome) id
  unfold startCommand
  dsimp only
  split <;> rename_i hs <;> rw [hs] at hlog
  · exact hlog
  · exact hlog

theorem silent_teardown (leaving : Bool) :
    Silent s (s.goOnTeardown leaving (Teardown.start s.termLimit s.killLimit s.fleet)) := by
  have hprocesses := Teardown.processes_begin s.termLimit s.killLimit s.fleet
  rcases hs : Teardown.start s.termLimit s.killLimit s.fleet with ⟨fleet, progress⟩
  rw [hs] at hprocesses
  exact .of_processes hprocesses (listens_map fun _ => rfl)

theorem silent_start (h : s.lineCall? command = none) : Silent s (start peers command s) := by
  have hline : ∀ {name : String} {called : Handle → LineCall} {act : Handle → Going},
      (s.handle? name).map called = none → Silent s (s.withHandle name act) :=
    fun hnone => silent_withHandle fun _ hh => by
      rw [hh] at hnone
      cases hnone
  cases command with
  | readLine name pattern limit => exact hline h
  | attach name pattern limit => exact hline h
  | ready name limit => exact hline h
  | reload name limit => exact hline h
  | start name request track => exact silent_startCommand name request track
  | run request limit check track => exact silent_run request limit check track _
  | finalOutput name =>
    exact silent_withHandle fun _ _ =>
      .of_processes (processes_pollEnd _ _ s) (listens_pollEnd _ _)
  | complete name =>
    exact silent_withHandle fun _ _ =>
      .of_processes (processes_pollEnd _ _ s) (listens_pollEnd _ _)
  | wait name =>
    exact silent_withHandle fun _ _ =>
      .of_processes (processes_pollEnd _ _ s) (listens_pollEnd _ _)
  | kill name =>
    exact silent_withHandle fun handle _ =>
      .of_processes (Stopping.processes_start handle.process s.fleet) (listens_map fun _ => rfl)
  | register name =>
    exact silent_withHandle fun handle _ =>
      ⟨fun id => Fleet.log_register s.fleet _ handle.process id, rfl⟩
  | unregister name =>
    exact silent_withHandle fun handle _ =>
      .of_processes (processes_unregister s.fleet _ handle.process) rfl
  | teardown => exact silent_teardown false
  | leave => exact silent_teardown true
  | killTree pid termLimit killLimit => exact .of_processes rfl (listens_map fun _ => rfl)
  | wrap name source command readLimit => exact silent_withHandle fun _ _ => .of_processes rfl rfl
  | output name => exact silent_withHandle fun _ _ => .of_processes rfl rfl
  | state name => exact silent_withHandle fun _ _ => .of_processes rfl rfl
  | drop name => exact silent_withHandle fun _ _ => .of_processes rfl rfl
  | entries => exact .of_processes rfl rfl
  | alive => exact .of_processes rfl rfl

variable {process : ProcessId} {pattern : PatternText} {compiled : Pattern.Compiled}
  {limit : Number.Seconds}

def subscribed (s : Session) (process : ProcessId) : Session :=
  { s with fleet := s.fleet.setLog process (s.fleet.log process).subscribe.1 }

theorem use_subscribed (s : Session) (process id : ProcessId) (p : QueueId → Prop) :
    Use p (s.fleet.log id) ((s.subscribed process).fleet.log id) :=
  Fleet.use_setLog fun he => he ▸ Use.refl.subscribe

theorem startLine_eq (h : pattern.compile = .ok compiled) :
    startLine process report pattern limit s =
      pollLine process report (LineWait.start compiled limit s.now (s.fleet.log process)).2
        (s.subscribed process) := by
  unfold startLine
  rw [h]
  rfl

theorem use_start (hnew : p (s.fleet.log id).queues.size) :
    Use p (s.fleet.log id) ((start peers command s).1.fleet.log id) := by
  cases hcall : s.lineCall? command with
  | none =>
    rw [(silent_start hcall).log]
    exact .refl
  | some call =>
    rw [(start_lineCall peers hcall).1]
    cases hc : call.pattern.compile with
    | error failure =>
      unfold startLine
      rw [hc]
      exact .refl
    | ok compiled =>
      rw [startLine_eq hc]
      refine (use_subscribed s call.process id p).trans (use_pollLine call.process call.report _ ?_)
      rintro rfl
      rwa [LineWait.queue_start]

theorem line_of_start (h : (start peers command s).2 = .pending (.line id report w)) :
    s.Hands id ∧ w.queue = (s.fleet.log id).queues.size ∧
      ((s.fleet.process? id).isSome = true →
        w.queue < ((start peers command s).1.fleet.log id).queues.size) := by
  cases hcall : s.lineCall? command with
  | none => cases (silent_start hcall).listens.symm.trans (congrArg listens h)
  | some call =>
    obtain ⟨hstart, hhands⟩ := start_lineCall peers hcall
    rw [hstart] at h ⊢
    cases hc : call.pattern.compile with
    | error failure =>
      unfold startLine at h
      rw [hc] at h
      cases h
    | ok compiled =>
      rw [startLine_eq hc] at h ⊢
      obtain ⟨rfl, rfl, rfl⟩ := Activity.line.inj (line_of_poll (a := .line _ _ _) h)
      rw [LineWait.queue_start]
      refine ⟨hhands, rfl, fun hp => ?_⟩
      obtain ⟨x, hx⟩ := Option.isSome_iff_exists.mp hp
      have hsize : ((s.subscribed call.process).fleet.log call.process).queues.size =
          (s.fleet.log call.process).queues.size + 1 :=
        (congrArg (·.queues.size) (Fleet.log_setLog hx _)).trans (size_subscribe _)
      exact Nat.lt_of_lt_of_le (hsize ▸ Nat.lt_succ_self _)
        (use_pollLine (p := fun _ => True) call.process call.report _ fun _ => trivial).size_le

def Listens (t : Timeline Session Activity Result) (task : TaskId) (id : ProcessId)
    (w : LineWait) : Prop :=
  ∃ report, t.tasks[task]? = some (.pending (.act (.line id report w)))

/-- Every subscription and every call has a queue, and no two calls have the same one. -/
structure Tidy (t : Timeline Session Activity Result) : Prop where
  bounded : ∀ id, (t.state.fleet.log id).Bounded
  seated : ∀ task id w, Listens t task id w → w.queue < (t.state.fleet.log id).queues.size
  apart : ∀ task other id v w, Listens t task id v → Listens t other id w → task ≠ other →
    v.queue ≠ w.queue

variable {t u : Timeline Session Activity Result} {task other : TaskId} {step : Step Command}

theorem use_pollTask (h : ∀ w, Listens t task id w → p w.queue) :
    Use p (t.state.fleet.log id) ((pollTask machinery t task).state.fleet.log id) := by
  obtain ⟨a, ha, hp⟩ | ⟨-, hs, -⟩ := pollTask_cases (m := machinery) t task
  · rw [hp]
    exact use_poll fun report w hw => h w ⟨report, hw ▸ ha⟩
  · rw [hs]
    exact .refl

theorem use_cancelTask (h : ∀ w, Listens t task id w → p w.queue) :
    Use p (t.state.fleet.log id) ((cancelTask machinery t task).1.state.fleet.log id) := by
  rcases cancelTask_state (m := machinery) t task with ⟨a, ha, hs⟩ | hs
  · rw [hs]
    exact use_cancel fun report w hw => h w ⟨report, hw ▸ ha⟩
  · rw [hs]
    exact .refl

theorem use_deliver (p : QueueId → Prop) (s : Session) (id : ProcessId) :
    Use p (s.fleet.log id) ((machinery.deliver s).fleet.log id) :=
  Fleet.use_of_size (Fleet.size_stepEach _ _ s.fleet) (Fleet.use_readOutputs p)

theorem use_complete (p : QueueId → Prop) (s : Session) (id : ProcessId) :
    Use p (s.fleet.log id) ((machinery.complete s).fleet.log id) := by
  have hsize : s.fleet.watchEnds.processes.size = s.fleet.processes.size := by
    unfold Fleet.watchEnds
    dsimp only
    rw [Fleet.size_stepEach, Fleet.size_stepEach, Fleet.size_stepEach]
  exact Fleet.use_of_size hsize (Fleet.use_watchEnds p)

theorem listens_pollTask (h : Listens (pollTask machinery t other) task id w) :
    Listens t task id w := by
  obtain ⟨report, h⟩ := h
  rcases act_pollTask (m := machinery) h with ⟨-, ht⟩ | ⟨a, ht, hp⟩
  · exact ⟨report, ht⟩
  · exact ⟨report, line_of_poll hp ▸ ht⟩

/-- Whatever is done with the queues, the calls that are left have theirs. -/
theorem Tidy.of_use (h : Tidy t)
    (huse : ∀ id, Use (fun _ => True) (t.state.fleet.log id) (u.state.fleet.log id))
    (hkept : ∀ task id w, Listens u task id w → Listens t task id w) : Tidy u where
  bounded id := (huse id).bounded (h.bounded id)
  seated task id w hw :=
    Nat.lt_of_lt_of_le (h.seated task id w (hkept task id w hw)) (huse id).size_le
  apart task other id v w hv hw :=
    h.apart task other id v w (hkept task id v hv) (hkept other id w hw)

theorem Tidy.pollTask (h : Tidy t) (task : TaskId) : Tidy (pollTask machinery t task) :=
  h.of_use (fun _ => use_pollTask fun _ _ => trivial) fun _ _ _ => listens_pollTask

theorem Tidy.cancelTask (h : Tidy t) (task : TaskId) : Tidy (cancelTask machinery t task).1 :=
  h.of_use (fun _ => use_cancelTask fun _ _ => trivial)
    fun _ _ _ ⟨report, hw⟩ => ⟨report, act_cancelTask hw⟩

theorem Tidy.deliver (h : Tidy t) : Tidy { t with state := machinery.deliver t.state } :=
  h.of_use (use_deliver _ t.state) fun _ _ _ hw => hw

theorem Tidy.complete (h : Tidy t) : Tidy { t with state := machinery.complete t.state } :=
  h.of_use (use_complete _ t.state) fun _ _ _ hw => hw

theorem Tidy.launch (h : Tidy t)
    (hhanded : ∀ id, t.state.Hands id → (t.state.fleet.process? id).isSome = true)
    (step : Step Command) : Tidy (launch machinery t step) := by
  cases hstep : step.command? with
  | none =>
    refine launch_idle (m := machinery) (P := Tidy) ?_ ?_ (fun _ id h => h.cancelTask id) hstep h
    · intro u task hidle hu
      exact hu.of_use (fun _ => .refl) fun _ _ _ ⟨report, hw⟩ => ⟨report, act_push_idle hidle hw⟩
    · exact fun u names hu => hu.of_use (fun _ => .refl) fun _ _ _ hw => hw
  | some command =>
    obtain ⟨hstate, hown, hacts⟩ := launch_command (m := machinery) hstep t
    have huse : ∀ id, Use (fun _ => True) (t.state.fleet.log id)
        ((Timeline.launch machinery t step).state.fleet.log id) := fun id => by
      rw [hstate]
      exact use_start trivial
    have hnew : ∀ id w, Listens (Timeline.launch machinery t step) t.tasks.size id w →
        w.queue = (t.state.fleet.log id).queues.size ∧
          w.queue < ((Timeline.launch machinery t step).state.fleet.log id).queues.size := by
      rintro id w ⟨report, hw⟩
      rw [hown] at hw
      obtain ⟨hhands, hqueue, hseated⟩ := line_of_start (ofProgress_eq_act (Option.some.inj hw))
      rw [hstate]
      exact ⟨hqueue, hseated (hhanded id hhands)⟩
    have hold : ∀ task id w, Listens (Timeline.launch machinery t step) task id w →
        Listens t task id w ∨ task = t.tasks.size :=
      fun task id w ⟨report, hw⟩ => (hacts task _ hw).imp_left fun hw => ⟨report, hw⟩
    -- the queue of the new call has a number that no queue had before
    refine ⟨fun id => (huse id).bounded (h.bounded id), fun task id w hw => ?_,
      fun task other id v w hv hw hne => ?_⟩
    · rcases hold task id w hw with ht | rfl
      · exact Nat.lt_of_lt_of_le (h.seated task id w ht) (huse id).size_le
      · exact (hnew id w hw).2
    · rcases hold task id v hv with hv' | rfl <;> rcases hold other id w hw with hw' | rfl
      · exact h.apart task other id v w hv' hw' hne
      · rw [(hnew id w hw).1]
        exact Nat.ne_of_lt (h.seated task id v hv')
      · rw [(hnew id v hv).1]
        exact Nat.ne_of_gt (h.seated other id w hw')
      · exact absurd rfl hne

theorem tidy_afresh (s : Session) (w : System) (others : List Birth) :
    Tidy { state := s.afresh w others } where
  bounded id q hq := by cases hq
  seated task id w h := by
    obtain ⟨report, h⟩ := h
    cases h
  apart task other id v w h := by
    obtain ⟨report, h⟩ := h
    cases h

theorem tidy_later {w : System} {others : List Birth} (hs : s.handles = [])
    (h : Later machinery { state := s.afresh w others } t) : Tidy t := by
  suffices hall : Later machinery { state := s.afresh w others } t ∧ Tidy t from hall.2
  refine Later.induction (m := machinery)
    (P := fun u => Later machinery { state := s.afresh w others } u ∧ Tidy u)
    ?_ ?_ ?_ ?_ ?_ ⟨.refl, tidy_afresh s w others⟩ h
  · exact fun u step hu => ⟨hu.1.launch step, hu.2.launch (referring_later hs hu.1).handed step⟩
  · exact fun u moment hu => ⟨hu.1.advance moment, hu.2.of_use (fun _ => .refl) fun _ _ _ hw => hw⟩
  · exact fun u hu => ⟨hu.1.deliver, hu.2.deliver⟩
  · exact fun u hu => ⟨hu.1.complete, hu.2.complete⟩
  · exact fun u task hu => ⟨hu.1.poll task, hu.2.pollTask task⟩

end Session

end Overseer
