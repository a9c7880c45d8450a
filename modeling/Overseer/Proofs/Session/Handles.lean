import Overseer.Proofs.Registry.EntryLedger
import Overseer.Proofs.Supervision.ExitCodes
import Overseer.Proofs.Supervision.Spawning

/-!
# Who refers to a process

Only handles and activities know a process, and they get to know it when it is started: the handle
that a caller starts it under, copies of that handle, and the run that waits for it. Whoever is
referred to exists, so a new process is known to nobody but its command (`Session.Referring`).
-/

namespace Overseer

open World Timeline

namespace BoundedRun

variable {r rest : BoundedRun} {f : Fleet}

def StopsOwn (r : BoundedRun) : Prop := ∀ x, r.stopping = some x → x.process = r.process

theorem pending_poll (h : (r.poll f).2 = .pending rest) :
    rest.process = r.process ∧ rest.tracked = r.tracked ∧ (r.StopsOwn → rest.StopsOwn) := by
  have hstopping : ∀ x : Fleet × Progress Stopping Stopping.Result,
      (r.StopsOwn → ∀ y, x.2 = .pending y → y.process = r.process) →
      (r.afterStopping x).2 = .pending rest →
        rest.process = r.process ∧ rest.tracked = r.tracked ∧ (r.StopsOwn → rest.StopsOwn) := by
    rintro ⟨g, stopping | ⟨failure | ⟨⟩⟩⟩ hown h
    · obtain rfl := Progress.pending.inj h
      refine ⟨rfl, rfl, fun hr x hx => ?_⟩
      obtain rfl := Option.some.inj hx
      exact hown hr stopping rfl
    · cases h
    · cases h
  unfold poll at h
  split at h
  next stopping hs =>
    exact hstopping _ (fun hr y hy => (Stopping.process_of_poll hy).trans (hr stopping hs)) h
  · split at h
    · cases h
    · split at h
      · exact hstopping _ (fun _ y hy => Stopping.process_of_start hy) h
      · obtain rfl := Progress.pending.inj h
        exact ⟨rfl, rfl, fun hr => hr⟩

end BoundedRun

namespace Session

def Hands (s : Session) (id : ProcessId) : Prop := ∃ x ∈ s.handles, x.2.process = id

def RunsOn (t : Timeline Session Activity Result) (task : TaskId) (id : ProcessId) : Prop :=
  ∃ r : BoundedRun, t.tasks[task]? = some (.pending (.act (.run r))) ∧ r.process = id

variable {s : Session} {peers : List Activity} {command : Command} {a : Activity} {r : BoundedRun}
  {id : ProcessId} {f g : Fleet}

theorem hands_of_handle? {name : String} {h : Handle} (hh : s.handle? name = some h) :
    s.Hands h.process := by
  obtain ⟨before, after, hsplit, -⟩ := List.lookup_eq_some_iff.mp hh
  exact ⟨(name, h), hsplit ▸ List.mem_append_right before List.mem_cons_self, rfl⟩

theorem handles_poll (a : Activity) (s : Session) : (poll a s).1.handles = s.handles := by
  cases a with
  | ending process report =>
    change (pollEnd process report s).1.handles = s.handles
    unfold pollEnd
    split <;> rfl
  | _ => rfl

theorem handles_cancel (a : Activity) (s : Session) : (cancel a s).handles = s.handles := by
  cases a <;> rfl

theorem Hands.of_handles {u : Session} (h : u.Hands id) (hsame : u.handles = s.handles) :
    s.Hands id := by
  obtain ⟨x, hx, hid⟩ := h
  exact ⟨x, hsame ▸ hx, hid⟩

theorem hands_withHandle {name : String} {act : Handle → Going}
    (hact : ∀ handle, s.handle? name = some handle → (act handle).1.Hands id → s.Hands id)
    (h : (s.withHandle name act).1.Hands id) : s.Hands id := by
  unfold withHandle at h
  cases hh : s.handle? name with
  | none =>
    rw [hh] at h
    exact h
  | some handle =>
    rw [hh] at h
    exact hact handle hh h

theorem hands_of_withHandle {name : String} {act : Handle → Going}
    (hact : ∀ handle, (act handle).1.handles = s.handles) :
    (s.withHandle name act).1.Hands id → s.Hands id :=
  hands_withHandle fun handle _ h => h.of_handles (hact handle)

theorem handles_startLine (process : ProcessId) (report : LineReport) (pattern : PatternText)
    (limit : Number.Seconds) (s : Session) :
    (startLine process report pattern limit s).1.handles = s.handles := by
  unfold startLine
  split <;> rfl

theorem hands_hold {name : String} {handle : Handle} (h : (s.hold name handle).Hands id) :
    handle.process = id ∨ s.Hands id := by
  obtain ⟨x, hx, hid⟩ := h
  rcases List.mem_cons.mp hx with rfl | hx
  · exact .inl hid
  · exact .inr ⟨x, (List.mem_filter.mp hx).1, hid⟩

def Started (f g : Fleet) (id : ProcessId) : Prop :=
  f.process? id = none ∧ (g.process? id).isSome = true

theorem started_of_startTracked {settings : Settings} {held : ProcessId → Bool} {request : Request}
    {track : Bool} (h : f.startTracked settings held request track = (g, .ok id)) :
    Started f g id := by
  have hspawned := (Fleet.spawned_startTracked h).1
  obtain ⟨p, hp, -⟩ := hspawned.fresh
  exact ⟨hspawned.process, Option.isSome_iff_exists.mpr ⟨p, hp⟩⟩

/-- Only a process that is being started gets a handle that it has not had. -/
theorem hands_start (h : (start peers command s).1.Hands id) :
    s.Hands id ∨ Started s.fleet (start peers command s).1.fleet id := by
  cases command with
  | start name request track =>
    simp only [start, startCommand] at h ⊢
    rcases hs : s.fleet.startTracked s.settings (s.holds peers) (s.placed request)
      (track || s.home.isSome) with ⟨g, failure | new⟩ <;> rw [hs] at h
    · exact .inl h
    · rcases hands_hold h with rfl | h
      · exact .inr (started_of_startTracked hs)
      · exact .inl h
  | wrap name source shown readLimit =>
    refine .inl (hands_withHandle (fun handle hh hhold => ?_) h)
    obtain hid | hheld := hands_hold hhold
    · have hid : handle.process = id := hid
      exact hid ▸ hands_of_handle? hh
    · exact hheld
  | drop name =>
    refine .inl (hands_withHandle (fun handle _ hdropped => ?_) h)
    obtain ⟨x, hx, hid⟩ := hdropped
    exact ⟨x, (List.mem_filter.mp hx).1, hid⟩
  | readLine name pattern limit =>
    exact .inl (hands_of_withHandle (fun _ => handles_startLine _ _ _ _ s) h)
  | attach name pattern limit =>
    exact .inl (hands_of_withHandle (fun _ => handles_startLine _ _ _ _ s) h)
  | ready name limit =>
    exact .inl (hands_of_withHandle (fun _ => handles_startLine _ _ _ _ s) h)
  | reload name limit =>
    exact .inl (hands_of_withHandle (fun _ => handles_startLine _ _ _ _ s) h)
  | finalOutput name =>
    exact .inl (hands_of_withHandle (fun _ => handles_poll (.ending _ _) s) h)
  | complete name => exact .inl (hands_of_withHandle (fun _ => handles_poll (.ending _ _) s) h)
  | wait name => exact .inl (hands_of_withHandle (fun _ => handles_poll (.ending _ _) s) h)
  | kill name => exact .inl (hands_of_withHandle (fun _ => rfl) h)
  | output name => exact .inl (hands_of_withHandle (fun _ => rfl) h)
  | state name => exact .inl (hands_of_withHandle (fun _ => rfl) h)
  | register name => exact .inl (hands_of_withHandle (fun _ => rfl) h)
  | unregister name => exact .inl (hands_of_withHandle (fun _ => rfl) h)
  | _ => exact .inl h

def runs : Progress Activity Result → Bool
  | .pending (.run _) => true
  | _ => false

/-- The request for a process that a command makes, and whether the process is to be tracked. -/
def launching? (s : Session) : Command → Option (Request × Bool)
  | .start _ request track => some (s.placed request, track || s.home.isSome)
  | .run request _ _ track => some (request, track)
  | _ => none

theorem runs_map {α β : Type} {progress : Progress α β} {activity : α → Activity}
    {answer : β → Result} (h : ∀ x, runs (.pending (activity x)) = false) :
    runs (progress.map activity answer) = false := by
  cases progress with
  | pending x => exact h x
  | done value => rfl

theorem runs_withHandle (name : String) {act : Handle → Going}
    (h : ∀ handle, runs (act handle).2 = false) : runs (s.withHandle name act).2 = false := by
  unfold withHandle
  split
  · exact h _
  · rfl

theorem runs_startLine (process : ProcessId) (report : LineReport) (pattern : PatternText)
    (limit : Number.Seconds) : runs (startLine process report pattern limit s).2 = false := by
  unfold startLine
  split
  · rfl
  · exact runs_map fun _ => rfl

theorem runs_pollEnd (process : ProcessId) (report : EndReport) :
    runs (pollEnd process report s).2 = false := by
  unfold pollEnd
  split <;> rfl

theorem runs_start (h : s.launching? command = none) :
    runs (start peers command s).2 = false := by
  cases command with
  | start name request track => cases h
  | run request limit check track => cases h
  | teardown => exact runs_map fun _ => rfl
  | leave => exact runs_map fun _ => rfl
  | killTree pid termLimit killLimit => exact runs_map fun _ => rfl
  | entries => rfl
  | alive => rfl
  | readLine name pattern limit => exact runs_withHandle name fun _ => runs_startLine _ _ _ _
  | attach name pattern limit => exact runs_withHandle name fun _ => runs_startLine _ _ _ _
  | ready name limit => exact runs_withHandle name fun _ => runs_startLine _ _ _ _
  | reload name limit => exact runs_withHandle name fun _ => runs_startLine _ _ _ _
  | finalOutput name => exact runs_withHandle name fun _ => runs_pollEnd _ _
  | complete name => exact runs_withHandle name fun _ => runs_pollEnd _ _
  | wait name => exact runs_withHandle name fun _ => runs_pollEnd _ _
  | kill name => exact runs_withHandle name fun _ => runs_map fun _ => rfl
  | wrap name source command readLimit => exact runs_withHandle source fun _ => rfl
  | output name => exact runs_withHandle name fun _ => rfl
  | state name => exact runs_withHandle name fun _ => rfl
  | register name => exact runs_withHandle name fun _ => rfl
  | unregister name => exact runs_withHandle name fun _ => rfl
  | drop name => exact runs_withHandle name fun _ => rfl

theorem pending_goOnRun {r : BoundedRun} {a : Activity}
    (h : (s.goOnRun (r.poll f)).2 = .pending a) :
    ∃ rest : BoundedRun, a = .run rest ∧ rest.process = r.process ∧ rest.tracked = r.tracked := by
  change (r.poll f).2.map .run (·.map Answer.text) = .pending a at h
  cases hp : (r.poll f).2 with
  | pending rest =>
    rw [hp] at h
    cases h
    obtain ⟨hprocess, htracked, -⟩ := BoundedRun.pending_poll hp
    exact ⟨rest, rfl, hprocess, htracked⟩
  | done result =>
    rw [hp] at h
    cases h

theorem run_of_poll (h : (poll a s).2 = .pending (.run r)) :
    ∃ before : BoundedRun, a = .run before ∧ r.process = before.process := by
  have hruns : runs (poll a s).2 = true := congrArg runs h
  cases a with
  | run before =>
    obtain ⟨rest, heq, hprocess, -⟩ := pending_goOnRun h
    cases heq
    exact ⟨before, rfl, hprocess⟩
  | ending process report => cases (runs_pollEnd process report).symm.trans hruns
  | line process report w => cases (runs_map fun _ => rfl).symm.trans hruns
  | tree tree => cases (runs_map fun _ => rfl).symm.trans hruns
  | stopping stopping => cases (runs_map fun _ => rfl).symm.trans hruns
  | teardown leaving teardown => cases (runs_map fun _ => rfl).symm.trans hruns

section

variable {request : Request} {track : Bool} {failure : Failure}

theorem start_launching_error (hl : s.launching? command = some (request, track))
    (hspawn : s.fleet.startTracked s.settings (s.holds peers) request track = (g, .error failure)) :
    start peers command s = ({ s with fleet := g }, .done (.error failure)) := by
  cases command with
  | start name asked tracked =>
    obtain ⟨rfl, rfl⟩ := Prod.mk.inj (Option.some.inj hl)
    rw [start, startCommand, hspawn]
  | run asked limit check tracked =>
    obtain ⟨rfl, rfl⟩ := Prod.mk.inj (Option.some.inj hl)
    rw [start, BoundedRun.start, hspawn]
    rfl
  | _ => cases hl

/-- Once a process has been started, its caller gets a handle to it, or a run of it goes on. -/
theorem start_launching (hl : s.launching? command = some (request, track))
    (hspawn : s.fleet.startTracked s.settings (s.holds peers) request track = (g, .ok id)) :
    (∃ name handle answer,
      start peers command s = (({ s with fleet := g } : Session).hold name handle,
        .done (.ok answer))) ∨
    ∃ r : BoundedRun, r.process = id ∧ r.tracked = track ∧ r.stopping = none ∧
      start peers command s = ({ s with fleet := g } : Session).goOnRun (r.poll g) := by
  cases command with
  | start name asked tracked =>
    obtain ⟨rfl, rfl⟩ := Prod.mk.inj (Option.some.inj hl)
    simp only [start, startCommand, hspawn]
    exact .inl ⟨name, _, _, rfl⟩
  | run asked limit check tracked =>
    obtain ⟨rfl, rfl⟩ := Prod.mk.inj (Option.some.inj hl)
    let run : BoundedRun :=
      { process := id, command := asked.command, limit := limit.getD s.settings.runTimeout
        deadline := (limit.getD s.settings.runTimeout).deadline g.now, check, tracked }
    refine .inr ⟨run, rfl, rfl, rfl, ?_⟩
    rw [start, BoundedRun.start, hspawn]
    rfl
  | _ => cases hl

end

theorem run_of_start (h : (start peers command s).2 = .pending (.run r)) :
    Started s.fleet (start peers command s).1.fleet r.process := by
  cases hl : s.launching? command with
  | none => cases (runs_start hl).symm.trans (congrArg runs h)
  | some asked =>
    obtain ⟨request, track⟩ := asked
    rcases hs : s.fleet.startTracked s.settings (s.holds peers) request track
      with ⟨g, failure | id⟩
    · rw [start_launching_error hl hs] at h
      cases h
    · obtain ⟨name, handle, answer, hbegun⟩ | ⟨run, rfl, -, -, hbegun⟩ := start_launching hl hs
      · rw [hbegun] at h
        cases h
      · rw [hbegun] at h ⊢
        obtain ⟨rest, heq, hprocess, -⟩ := pending_goOnRun h
        cases heq
        obtain ⟨hnew, hthere⟩ := started_of_startTracked hs
        rw [hprocess]
        refine ⟨hnew, ?_⟩
        change ((run.poll g).1.process? run.process).isSome = true
        rwa [Fleet.process?, processes_pollRun]

section

variable {t u : Timeline Session Activity Result} {step : Step Command} {task other : TaskId}

/-- A step without a command leaves the registry and the handles alone, and begins no run. -/
theorem launch_quiet (hstep : step.command? = none) :
    (launch machinery t step).state.fleet.registry = t.state.fleet.registry ∧
      (launch machinery t step).state.handles = t.state.handles ∧
      ∀ task id, RunsOn (launch machinery t step) task id → RunsOn t task id := by
  refine launch_idle (m := machinery)
    (P := fun u => u.state.fleet.registry = t.state.fleet.registry ∧
      u.state.handles = t.state.handles ∧ ∀ task id, RunsOn u task id → RunsOn t task id)
    ?_ ?_ ?_ hstep ⟨rfl, rfl, fun _ _ h => h⟩
  · rintro u task hidle ⟨hr, hh, hruns⟩
    exact ⟨hr, hh, fun other id ⟨r, ha, hid⟩ => hruns other id ⟨r, act_push_idle hidle ha, hid⟩⟩
  · exact fun u names hu => hu
  · rintro u cancelled ⟨hr, hh, hruns⟩
    refine ⟨?_, ?_, fun other id ⟨r, ha, hid⟩ => hruns other id ⟨r, act_cancelTask ha, hid⟩⟩
    · rcases cancelTask_state (m := machinery) u cancelled with ⟨a, -, hs⟩ | hs
      · rw [hs]
        cases a <;> exact hr
      · rw [hs, hr]
    · rcases cancelTask_state (m := machinery) u cancelled with ⟨a, -, hs⟩ | hs
      · rw [hs]
        exact (handles_cancel a u.state).trans hh
      · rw [hs, hh]

theorem hands_launch (h : (launch machinery t step).state.Hands id) :
    t.state.Hands id ∨ Started t.state.fleet (launch machinery t step).state.fleet id := by
  cases hstep : step.command? with
  | none =>
    obtain ⟨x, hx, hid⟩ := h
    exact .inl ⟨x, (launch_quiet hstep).2.1 ▸ hx, hid⟩
  | some command =>
    obtain ⟨hstate, -, -⟩ := launch_command (m := machinery) hstep t
    rw [hstate] at h ⊢
    exact hands_start h

theorem runsOn_launch (h : RunsOn (launch machinery t step) task id) :
    RunsOn t task id ∨
      task = t.tasks.size ∧ Started t.state.fleet (launch machinery t step).state.fleet id := by
  cases hstep : step.command? with
  | none => exact .inl ((launch_quiet hstep).2.2 task id h)
  | some command =>
    obtain ⟨hstate, hown, hacts⟩ := launch_command (m := machinery) hstep t
    obtain ⟨r, hr, rfl⟩ := h
    rcases hacts task _ hr with ht | rfl
    · exact .inl ⟨r, ht, rfl⟩
    · rw [hown] at hr
      rw [hstate]
      exact .inr ⟨rfl, run_of_start (ofProgress_eq_act (Option.some.inj hr))⟩

theorem handles_pollTask (t : Timeline Session Activity Result) (task : TaskId) :
    (pollTask machinery t task).state.handles = t.state.handles := by
  obtain ⟨a, -, hp⟩ | ⟨-, hs, -⟩ := pollTask_cases (m := machinery) t task
  · rw [hp]
    exact handles_poll a t.state
  · rw [hs]

theorem runsOn_pollTask (h : RunsOn (pollTask machinery t other) task id) : RunsOn t task id := by
  obtain ⟨r, hr, rfl⟩ := h
  rcases act_pollTask (m := machinery) hr with ⟨-, ht⟩ | ⟨a, ht, hp⟩
  · exact ⟨r, ht, rfl⟩
  · obtain ⟨before, rfl, hprocess⟩ := run_of_poll hp
    exact ⟨before, ht, hprocess.symm⟩

structure Referring (t : Timeline Session Activity Result) : Prop where
  handed : ∀ id, t.state.Hands id → (t.state.fleet.process? id).isSome = true
  run : ∀ task id, RunsOn t task id → (t.state.fleet.process? id).isSome = true

theorem referring_later {s : Session} {w : System} {others : List Birth} (hs : s.handles = [])
    (h : Later machinery { state := s.afresh w others } t) : Referring t := by
  have hempty : Referring { state := s.afresh w others } := by
    refine ⟨fun id ⟨x, hx, _⟩ => ?_, fun task id ⟨r, hr, _⟩ => by cases hr⟩
    rw [show (s.afresh w others).handles = [] from hs] at hx
    cases hx
  refine Later.induction (m := machinery) (P := Referring) ?_ ?_ ?_ ?_ ?_ hempty h
  · intro u step hu
    have hlater : Later machinery u (launch machinery u step) := .launch step .refl
    refine ⟨fun id hid => ?_, fun task id hid => ?_⟩
    · rcases hands_launch hid with hid | hnew
      · exact exists_later (hu.handed id hid) hlater
      · exact hnew.2
    · rcases runsOn_launch hid with hid | ⟨-, hnew⟩
      · exact exists_later (hu.run task id hid) hlater
      · exact hnew.2
  · exact fun u moment hu => ⟨hu.handed, hu.run⟩
  · exact fun u hu => ⟨fun id hid => exists_later (hu.handed id hid) (.deliver .refl),
      fun task id hid => exists_later (hu.run task id hid) (.deliver .refl)⟩
  · exact fun u hu => ⟨fun id hid => exists_later (hu.handed id hid) (.complete .refl),
      fun task id hid => exists_later (hu.run task id hid) (.complete .refl)⟩
  · intro u polled hu
    have hlater : Later machinery u (pollTask machinery u polled) := .poll polled .refl
    refine ⟨fun id ⟨x, hx, hid⟩ => ?_, fun task id hid => ?_⟩
    · exact exists_later (hu.handed id ⟨x, handles_pollTask u polled ▸ hx, hid⟩) hlater
    · exact exists_later (hu.run task id (runsOn_pollTask hid)) hlater

end

end Session

end Overseer
