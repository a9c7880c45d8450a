import Overseer.Proofs.BoundedRun.Outcomes
import Overseer.Proofs.Registry.PidEntries

/-!
# Commands and their entries

A command that starts a process to be tracked enters it, and leaves the entries of other pids as
they are, however it ends. The process keeps the entry, but for one case: its run takes too long and
has it stopped (`Session.Fate`). What else goes on meanwhile does no harm to it, since nobody else
can take it off without a handle to it (`Session.Watched`).
-/

namespace Overseer

open World Timeline

namespace BoundedRun

variable {r : BoundedRun} {f : Fleet} {p : Supervised}

theorem exited_of_isOverdue (hp : (f.process? r.process).isSome = true) (hown : r.StopsOwn)
    (h : isOverdue (r.poll f).2 = true) : ∃ code, (r.poll f).1.exitCode? r.process = some code := by
  have hstopping : ∀ x : Fleet × Progress Stopping Stopping.Result,
      (x.2 = .done (.ok ()) → ∃ code, x.1.exitCode? r.process = some code) →
      (∀ failure, x.2 = .done (.error failure) → failure.isOfTree = true) →
      isOverdue (r.afterStopping x).2 = true →
        ∃ code, (r.afterStopping x).1.exitCode? r.process = some code := by
    intro x hx hfails hover
    have hprocesses := Session.processes_afterStopping r x
    rw [Fleet.exitCode?, Fleet.process?, hprocesses]
    obtain ⟨g, stopping | ⟨failure | ⟨⟩⟩⟩ := x
    · cases hover
    · cases (isOverdue_of_isOfTree (hfails failure rfl)).symm.trans hover
    · exact hx rfl
  unfold poll at h ⊢
  split at h
  next stopping hs =>
    refine hstopping _ (fun hdone => ?_) (fun _ => Stopping.isOfTree_poll stopping f) h
    rw [← hown stopping hs] at hp ⊢
    exact Stopping.ended_poll hp hdone
  · split at h
    next code _ => cases (isOverdue_finish r code f).symm.trans h
    · split at h
      next hreached =>
        rw [if_pos hreached]
        exact hstopping _ (Stopping.ended_start hp)
          (fun _ => Stopping.isOfTree_start r.process (f.report _)) h
      · cases h

/-- A run touches no entry but that of its process, and none at all if that is not tracked. -/
theorem changedAt_poll (hp : f.process? r.process = some p) :
    Registry.ChangedAt p.pid r.tracked f.registry (r.poll f).1.registry := by
  obtain ⟨-, hr⟩ | ⟨⟨htracked, -⟩, standing, hr⟩ := r.registry_poll f
  · exact hr ▸ .refl
  · rw [hr, htracked]
    exact ⟨Fleet.besides_unregister hp standing, nofun⟩

end BoundedRun

namespace Session

theorem registry_poll (a : Activity) (s : Session) :
    (poll a s).1.fleet.registry = s.fleet.registry ∨
      ∃ (r : BoundedRun) (standing : ProcessId → Standing), a = .run r ∧
        (poll a s).1.fleet.registry = (s.fleet.unregister standing r.process).1.registry := by
  cases a with
  | line process report w => exact .inl rfl
  | ending process report => exact .inl (registry_pollEnd process report s)
  | tree tree => exact .inl rfl
  | stopping stopping => exact .inl (Stopping.registry_poll stopping s.fleet)
  | teardown leaving teardown => exact .inl (Teardown.registry_poll teardown s.fleet)
  | run r =>
    obtain ⟨-, hr⟩ | ⟨-, standing, hr⟩ := r.registry_poll s.fleet
    · exact .inl hr
    · exact .inr ⟨r, standing, rfl, hr⟩

/-- The entry of a process, given the task of the command that has entered it. It is there unless
the command has failed because it has taken too long; then the process has been stopped. Whoever
runs a command gives nobody a handle to its process. -/
inductive Fate (pid : Int) (id : ProcessId) (s : Session) : Task Activity Result → Prop where
  | running {r : BoundedRun} : r.process = id → r.tracked = true → r.StopsOwn → ¬ s.Hands id →
      s.fleet.registry.TracksAt pid id → Fate pid id s (.pending (.act (.run r)))
  | ended {time : Instant} {ending : Ending Result} : timedOut? (.ended time ending) = none →
      s.fleet.registry.TracksAt pid id → Fate pid id s (.ended time ending)
  | overdue {time : Instant} {ending : Ending Result} {code : Int} :
      (timedOut? (.ended time ending)).isSome = true → s.fleet.exitCode? id = some code →
      ¬ s.Hands id → ¬ s.fleet.Tracks id → Fate pid id s (.ended time ending)

section

variable {s t : Session} {r : BoundedRun} {pid : Int} {id : ProcessId} {x : Task Activity Result}
  {p : Supervised}

theorem Fate.goes (h : Fate pid id s x)
    (hcode : ∀ code, s.fleet.exitCode? id = some code → t.fleet.exitCode? id = some code)
    (hhands : t.Hands id → s.Hands id)
    (htracks : s.fleet.registry.TracksAt pid id → t.fleet.registry.TracksAt pid id)
    (hback : t.fleet.Tracks id → s.fleet.Tracks id ∨ s.Hands id) :
    Fate pid id t x := by
  cases h with
  | running hprocess htracked hown hnobody hat =>
    exact .running hprocess htracked hown (hnobody ∘ hhands) (htracks hat)
  | ended htask hat => exact .ended htask (htracks hat)
  | overdue htask hx hnobody hnone =>
    exact .overdue htask (hcode _ hx) (hnobody ∘ hhands) fun h => (hback h).elim hnone hnobody

theorem Fate.entry (h : Fate pid id s x) :
    (timedOut? x = none → s.fleet.registry.TracksAt pid id) ∧
      ((timedOut? x).isSome = true →
        (∃ code, s.fleet.exitCode? id = some code) ∧ ¬ s.fleet.Tracks id) := by
  cases h with
  | running _ _ _ _ hat => exact ⟨fun _ => hat, fun hover => by cases hover⟩
  | ended hnot hat =>
    refine ⟨fun _ => hat, fun hover => ?_⟩
    rw [hnot] at hover
    cases hover
  | overdue hover hcode _ hnone =>
    refine ⟨fun hnot => ?_, fun _ => ⟨⟨_, hcode⟩, hnone⟩⟩
    rw [hnot] at hover
    cases hover

theorem Fate.cancel {errand : Errand Activity} (h : Fate pid id s (.pending errand))
    (time : Instant) : Fate pid id s (.ended time .cancelled) := by
  cases h with
  | running _ _ _ _ hat => exact .ended rfl hat

/-- A run goes on: only if it fails because it has taken too long is its process taken off. -/
theorem fate_poll (hf : s.fleet.Registered) (hp : s.fleet.process? id = some p)
    (hprocess : r.process = id) (htracked : r.tracked = true) (hown : r.StopsOwn)
    (hnobody : ¬ s.Hands id) (hat : s.fleet.registry.TracksAt pid id) :
    let going := s.goOnRun (r.poll s.fleet)
    Fate pid id going.1 (.ofProgress going.1.now going.2) := by
  intro going
  subst hprocess
  have hregistry := r.registry_poll s.fleet
  have hexited := r.exited_of_isOverdue (f := s.fleet) (by simp [hp]) hown
  change Fate pid r.process { s with fleet := (r.poll s.fleet).1 }
    (.ofProgress going.1.now ((r.poll s.fleet).2.map .run (·.map .text)))
  rcases hpoll : r.poll s.fleet with ⟨f, rest | result⟩ <;> rw [hpoll] at hregistry hexited
  · obtain ⟨hrest, hkept, hstops⟩ := BoundedRun.pending_poll (congrArg Prod.snd hpoll)
    obtain ⟨-, hr⟩ | ⟨⟨-, hover⟩, -⟩ := hregistry
    · have hnow : f.registry.TracksAt pid r.process := hr ▸ hat
      exact .running hrest (hkept.trans htracked) (hstops hown) hnobody hnow
    · cases hover
  · obtain ⟨hno, hr⟩ | ⟨⟨-, hover⟩, standing, hr⟩ := hregistry
    · have hnow : f.registry.TracksAt pid r.process := hr ▸ hat
      refine .ended ?_ hnow
      rcases result with failure | output
      · cases failure with
        | timeout => exact absurd ⟨htracked, rfl⟩ hno
        | _ => rfl
      · rfl
    · obtain ⟨code, hx⟩ := hexited hover
      have hnone : ¬ f.Tracks r.process := fun h =>
        hf.not_tracks_unregister hp standing (h.of_registry hr)
      refine .overdue ?_ hx hnobody hnone
      rcases result with failure | output
      · cases failure with
        | timeout => rfl
        | _ => cases hover
      · cases hover

end

section

variable {t u : Timeline Session Activity Result} {step : Step Command} {own : TaskId} {pid : Int}
  {id : ProcessId} {f : Fleet} {p : Supervised} {s : Session} {w : System} {others : List Birth}

/-- The entry of a process is under watch: the process exists, nobody else runs it, and what has
become of its entry is told by its task. -/
structure Watched (own : TaskId) (pid : Int) (id : ProcessId)
    (t : Timeline Session Activity Result) : Prop where
  known : ∃ p, t.state.fleet.process? id = some p ∧ p.pid = pid
  alone : ∀ other, RunsOn t other id → other = own
  fate : ∃ x, t.tasks[own]? = some x ∧ Fate pid id t.state x

theorem Watched.exists (h : Watched own pid id t) : (t.state.fleet.process? id).isSome = true := by
  obtain ⟨p, hp, -⟩ := h.known
  exact Option.isSome_iff_exists.mpr ⟨p, hp⟩

theorem known_later (h : ∃ p, t.state.fleet.process? id = some p ∧ p.pid = pid)
    (hlater : Later machinery t u) : ∃ p, u.state.fleet.process? id = some p ∧ p.pid = pid := by
  obtain ⟨p, hp, hpid⟩ := h
  obtain ⟨q, hq, hsame⟩ := Supervised.enduring_termination.later hlater hp
  exact ⟨q, hq, (congrArg Tree.Termination.pid hsame).trans hpid⟩

/-- What leaves the registry, the handles and the tasks alone leaves the entry alone. -/
theorem Watched.goes (h : Watched own pid id t)
    (hlater : Later machinery t { t with state := { t.state with fleet := f } })
    (hr : f.registry = t.state.fleet.registry) :
    Watched own pid id { t with state := { t.state with fleet := f } } where
  known := known_later h.known hlater
  alone := h.alone
  fate := by
    obtain ⟨x, hx, hfate⟩ := h.fate
    exact ⟨x, hx, hfate.goes (fun code hc => exitCode?_later hc hlater) (fun hh => hh)
      (fun hat => hr ▸ hat) fun htracks => .inl (htracks.of_registry hr)⟩

theorem Watched.pollTask (h : Watched own pid id t) (hf : t.state.fleet.Registered)
    (polled : TaskId) : Watched own pid id (pollTask machinery t polled) := by
  have hlater : Later machinery t (Timeline.pollTask machinery t polled) := .poll polled .refl
  refine ⟨known_later h.known hlater, fun other hruns => h.alone other (runsOn_pollTask hruns), ?_⟩
  obtain ⟨x, hx, hfate⟩ := h.fate
  by_cases hown : polled = own
  · subst hown
    cases hfate with
    | running hprocess htracked hstops hnobody hat =>
      obtain ⟨p, hp, -⟩ := h.known
      obtain ⟨hstate, htask⟩ := pollTask_pending (m := machinery) hx
      refine ⟨_, htask, ?_⟩
      rw [hstate]
      exact fate_poll hf hp hprocess htracked hstops hnobody hat
    | ended htask hat =>
      rw [pollTask_of_not_pending (fun errand hp => by cases hx.symm.trans hp)]
      exact ⟨_, hx, .ended htask hat⟩
    | overdue htask hcode hnobody hnone =>
      rw [pollTask_of_not_pending (fun errand hp => by cases hx.symm.trans hp)]
      exact ⟨_, hx, .overdue htask hcode hnobody hnone⟩
  -- another task may take off a process that it runs, but it does not run this one
  · refine ⟨x, (pollTask_of_ne hown).trans hx, ?_⟩
    have hhands : (Timeline.pollTask machinery t polled).state.Hands id → t.state.Hands id := by
      rintro ⟨y, hy, hid⟩
      exact ⟨y, handles_pollTask t polled ▸ hy, hid⟩
    have hregistry : (Timeline.pollTask machinery t polled).state.fleet.registry =
          t.state.fleet.registry ∨
        ∃ (other : ProcessId) (standing : ProcessId → Standing), other ≠ id ∧
          (Timeline.pollTask machinery t polled).state.fleet.registry =
            (t.state.fleet.unregister standing other).1.registry := by
      obtain ⟨a, ha, hp⟩ | ⟨-, hs, -⟩ := pollTask_cases (m := machinery) t polled
      · rw [hp]
        refine (registry_poll a t.state).imp_right ?_
        rintro ⟨r, standing, rfl, hr⟩
        exact ⟨r.process, standing, fun hid => hown (h.alone polled ⟨r, ha, hid⟩), hr⟩
      · exact .inl (by rw [hs])
    refine hfate.goes (fun code hc => exitCode?_later hc hlater) hhands ?_ ?_
    · intro hat
      obtain hr | ⟨other, standing, hne, hr⟩ := hregistry
      · exact hr ▸ hat
      · exact hr ▸ Fleet.tracksAt_of_unregister hat standing hne
    · intro htracks
      obtain hr | ⟨other, standing, -, hr⟩ := hregistry
      · exact .inl (htracks.of_registry hr)
      · exact .inl (Fleet.tracks_of_unregister (htracks.of_registry hr))

theorem Watched.launch (h : Watched own pid id t)
    (hspares : ∀ command, step.command? = some command → t.state.Spares pid id command) :
    Watched own pid id (launch machinery t step) := by
  have hold : ∀ {g : Fleet}, ¬ Started t.state.fleet g id := fun hnew =>
    Option.isSome_iff_ne_none.mp h.exists hnew.1
  have hlater : Later machinery t (Timeline.launch machinery t step) := .launch step .refl
  refine ⟨known_later h.known hlater, fun other hruns => ?_, ?_⟩
  · exact h.alone other ((runsOn_launch hruns).resolve_right fun hnew => hold hnew.2)
  · have hhands : (Timeline.launch machinery t step).state.Hands id → t.state.Hands id := fun hh =>
      (hands_launch hh).resolve_right hold
    have hregistry : (t.state.fleet.registry.TracksAt pid id →
          (Timeline.launch machinery t step).state.fleet.registry.TracksAt pid id) ∧
        ((Timeline.launch machinery t step).state.fleet.Tracks id →
          t.state.fleet.Tracks id ∨ t.state.Hands id) := by
      cases hstep : step.command? with
      | none =>
        have hr := (launch_quiet (t := t) hstep).1
        exact ⟨fun hat => hr ▸ hat, fun htracks => .inl (htracks.of_registry hr)⟩
      | some command =>
        have hregisters := registers_start t.state t.activities command
        rw [(launch_command (m := machinery) hstep t).1]
        exact ⟨hregisters.tracksAt (hspares command hstep) h.exists, hregisters.tracks h.exists⟩
    obtain ⟨x, hx, hfate⟩ := h.fate
    have hgoes : Fate pid id (Timeline.launch machinery t step).state x :=
      hfate.goes (fun code hc => exitCode?_later hc hlater) hhands hregistry.1 hregistry.2
    rcases launch_task (m := machinery) hx step with hsame | ⟨errand, time, rfl, hcancelled⟩
    · exact ⟨x, hsame, hgoes⟩
    · exact ⟨_, hcancelled, hgoes.cancel time⟩

theorem Watched.settle (h : Watched own pid id t)
    (hlater : Later machinery { state := s.afresh w others } t) :
    Watched own pid id (settle machinery t) := by
  refine (settle_induction (m := machinery) (P := fun u =>
    Later machinery { state := s.afresh w others } u ∧ Watched own pid id u) ?_ ?_ ?_
    ⟨hlater, h⟩).2
  · rintro u ⟨hu, hwatched⟩
    exact ⟨hu.deliver, hwatched.goes (.deliver .refl) (Fleet.registry_stepEach _ _ u.state.fleet)⟩
  · rintro u ⟨hu, hwatched⟩
    exact ⟨hu.complete, hwatched.goes (.complete .refl) (Fleet.registry_watchEnds u.state.fleet)⟩
  · rintro u polled ⟨hu, hwatched⟩
    exact ⟨hu.poll polled, hwatched.pollTask (registered_later hu) polled⟩

/-- Nothing that is begun in a play takes a process off, nor puts another one in its place. -/
def Spared (pid : Int) (id : ProcessId) (t : Timeline Session Activity Result) :
    List (Move Command) → Prop
  | [] => True
  | x :: moves =>
    (∀ step command, x = .begin step → step.command? = some command →
      t.state.Spares pid id command) ∧ Spared pid id (move machinery t x) moves

theorem spared_of_idle {moves : List (Move Command)}
    (h : ∀ step, .begin step ∈ moves → step.command? = none) : Spared pid id t moves := by
  induction moves generalizing t with
  | nil => trivial
  | cons x moves ih =>
    refine ⟨fun step command hx hcommand => ?_, ih fun step hstep => h step (.tail x hstep)⟩
    subst hx
    cases (h step (.head moves)).symm.trans hcommand

theorem Watched.play (h : Watched own pid id t)
    (hlater : Later machinery { state := s.afresh w others } t) {moves : List (Move Command)}
    (hspared : Spared pid id t moves) : Watched own pid id (play machinery t moves) := by
  induction moves generalizing t with
  | nil => exact h
  | cons x moves ih =>
    obtain ⟨hbegun, hmoved⟩ := hspared
    have hstirred : Watched own pid id (stir machinery t x) := by
      cases x with
      | begin step => exact h.launch fun command => hbegun step command rfl
      | tick =>
        unfold stir
        cases nextMoment machinery t with
        | none => exact h
        | some moment => exact h.goes (.advance moment .refl) rfl
    exact ih (hstirred.settle (hlater.stir x)) (hlater.stir x).settle hmoved

end

theorem run_of_goOnRun (s : Session) (r : BoundedRun) (f : Fleet) :
    let going := s.goOnRun (r.poll f)
    ∀ errand, Task.ofProgress going.1.now going.2 = .pending errand →
      ∃ rest : BoundedRun, errand = .act (.run rest) ∧ rest.process = r.process ∧
        rest.tracked = r.tracked := by
  intro going errand h
  cases hp : going.2 with
  | pending a =>
    obtain ⟨rest, rfl, hrest⟩ := pending_goOnRun hp
    rw [hp] at h
    cases h
    exact ⟨rest, rfl, hrest⟩
  | done result =>
    rw [hp] at h
    cases h

section

variable {before t : Timeline Session Activity Result} {step : Step Command} {command : Command}
  {request : Request} {track : Bool} {pid : Int} {g : Fleet} {id : ProcessId} {p : Supervised}
  {s : Session} {w : System} {others : List Birth} {turns : List (Session × Session)}
  {task : Task Activity Result}

/-- The command that starts a process touches no other entry in its turns, and goes on at most as a
run of this process. -/
structure Modest (pid : Int) (id : ProcessId) (track : Bool) (turns : List (Session × Session))
    (t : Timeline Session Activity Result) (task : Task Activity Result) : Prop where
  known : ∃ p, t.state.fleet.process? id = some p ∧ p.pid = pid
  turns : ∀ turn ∈ turns,
    Registry.ChangedAt pid track turn.1.fleet.registry turn.2.fleet.registry
  task : ∀ errand, task = .pending errand →
    ∃ r : BoundedRun, errand = .act (.run r) ∧ r.process = id ∧ r.tracked = track

theorem upheld_modest (own : TaskId) : Upheld machinery own (Modest pid id track) where
  still hlater _ h := ⟨known_later h.known hlater, h.turns, h.task⟩
  tick {_ _ _ moment} _ _ _ h := ⟨known_later h.known (.advance moment .refl), h.turns, h.task⟩
  cancel h := ⟨h.known, h.turns, fun _ he => by cases he⟩
  poll {turns t errand} htask h := by
    obtain ⟨r, rfl, rfl, rfl⟩ := h.task errand rfl
    obtain ⟨p, hp, rfl⟩ := h.known
    have hstate := (pollTask_pending (m := machinery) htask).1
    refine ⟨known_later h.known (.poll own .refl), fun turn hturn => ?_, ?_⟩
    · rcases List.mem_append.mp hturn with hturn | hturn
      · exact h.turns turn hturn
      · rw [List.mem_singleton.mp hturn, hstate]
        exact BoundedRun.changedAt_poll hp
    · exact run_of_goOnRun t.state r t.state.fleet

theorem launch_failing {failure : Failure} (hstep : step.command? = some command)
    (hl : before.state.launching? command = some (request, track))
    (hspawn : before.state.fleet.startTracked before.state.settings
      (before.state.holds before.activities) request track = (g, .error failure)) :
    (launch machinery before step).state = { before.state with fleet := g } ∧
      (launch machinery before step).tasks[before.tasks.size]? =
        some (.ended before.state.now (.result (.error failure))) := by
  have hnow : g.now = before.state.now := by
    have hall := Fleet.calls_startTracked (k := True) trivial .refl before.state.settings
      (before.state.holds before.activities) request track (f := before.state.fleet)
    rw [hspawn] at hall
    exact hall.carries.now
  have hbegun : machinery.start before.activities command before.state =
      ({ before.state with fleet := g }, .done (.error failure)) :=
    start_launching_error hl hspawn
  obtain ⟨hstate, htask, -⟩ := launch_command (m := machinery) hstep before
  rw [hbegun] at hstate htask
  refine ⟨hstate, htask.trans ?_⟩
  rw [← hnow]
  rfl

theorem modest_launch (hstep : step.command? = some command)
    (hl : before.state.launching? command = some (request, track))
    (hspawn : before.state.fleet.startTracked before.state.settings
      (before.state.holds before.activities) request track = (g, .ok id))
    (hp : g.process? id = some p) :
    Timeline.Holding (Modest p.pid id track) before.tasks.size
      [(before.state, (launch machinery before step).state)] (launch machinery before step) := by
  have hentered := Fleet.changedAt_startTracked hspawn hp
  obtain ⟨hstate, htask, -⟩ := launch_command (m := machinery) hstep before
  refine ⟨_, htask, ?_⟩
  obtain ⟨name, handle, answer, hbegun⟩ | ⟨r, rfl, rfl, -, hbegun⟩ := start_launching hl hspawn
  all_goals
    have hbegun : machinery.start before.activities command before.state = _ := hbegun
    rw [hbegun] at hstate ⊢
  · refine ⟨⟨p, by rw [hstate]; exact hp, rfl⟩, fun turn hturn => ?_, fun _ he => by cases he⟩
    rw [List.mem_singleton.mp hturn, hstate]
    exact hentered
  · refine ⟨⟨p, ?_, rfl⟩, fun turn hturn => ?_, run_of_goOnRun { before.state with fleet := g } r g⟩
    · rw [hstate]
      change (r.poll g).1.process? r.process = some p
      rwa [Fleet.process?, processes_pollRun]
    · rw [List.mem_singleton.mp hturn, hstate]
      exact hentered.trans (BoundedRun.changedAt_poll hp)

/-- Nobody but its command knows a process that has just been started. -/
theorem watched_launch (hlater : Later machinery { state := s.afresh w others } before)
    (hreferring : Referring before) (hstep : step.command? = some command)
    (hl : before.state.launching? command = some (request, true))
    (hspawn : before.state.fleet.startTracked before.state.settings
      (before.state.holds before.activities) request true = (g, .ok id))
    (hp : g.process? id = some p) :
    Watched before.tasks.size p.pid id (launch machinery before step) := by
  have hnew := (Fleet.spawned_startTracked hspawn).1.process
  have hunknown : ¬ (before.state.fleet.process? id).isSome = true := by simp [hnew]
  have hnobody : ¬ before.state.Hands id := fun hh => hunknown (hreferring.handed id hh)
  obtain ⟨x, hx, hmodest⟩ := modest_launch hstep hl hspawn hp
  refine ⟨hmodest.known, fun other hruns => ?_, ?_⟩
  · obtain hold | ⟨hown, -⟩ := runsOn_launch hruns
    · exact absurd (hreferring.run other id hold) hunknown
    · exact hown
  · have hat := Fleet.tracksAt_startTracked hspawn hp
    obtain ⟨hstate, htask, -⟩ := launch_command (m := machinery) hstep before
    refine ⟨_, htask, ?_⟩
    obtain ⟨name, handle, answer, hbegun⟩ | ⟨r, hprocess, htracked, hidle, hbegun⟩ :=
      start_launching hl hspawn
    all_goals
      have hbegun : machinery.start before.activities command before.state = _ := hbegun
      rw [hbegun] at hstate ⊢
      rw [hstate]
    · exact .ended rfl hat
    · have hcalls : Fleet.Calls True before.state.fleet g := by
        have hall := Fleet.calls_startTracked (k := True) trivial .refl before.state.settings
          (before.state.holds before.activities) request true (f := before.state.fleet)
        rwa [hspawn] at hall
      have hregistered : g.Registered := (registered_later hlater).calls hcalls
      have hown : r.StopsOwn := fun x hx => by cases hidle.symm.trans hx
      exact fate_poll (s := { before.state with fleet := g }) hregistered hp hprocess htracked hown
        hnobody hat

/-- Commands keep the registry honest. A request whose command line does not begin as it has to
changes nothing at all, and one that fails in another way ends at once and leaves the registry as it
is. A command that starts a process touches no entry but that of the pid of the process, and none at
all unless it is to track it. A tracked process has its entry from the start, and keeps it in
whatever way the command ends, but for one: when the command fails because it has taken too long,
the end of the process has been reported and it has no entry. Meanwhile nothing may be begun that
takes the process off, or tracks another one with the same pid. -/
theorem commands_keep_registry (s : Session) (w : System) (others : List Birth)
    (first : List (Move Command)) {step : Step Command} {command : Command} {request : Request}
    {track : Bool} :
    let start : Timeline Session Activity Result := { state := s.afresh w others }
    let before := play machinery start first
    let spawned := before.state.fleet.startTracked before.state.settings
      (before.state.holds before.activities) request track
    s.handles = [] → step.command? = some command →
    before.state.launching? command = some (request, track) →
    (∀ text, spawned.2 = .error (.usage text) →
      (launch machinery before step).state = before.state) ∧
    (∀ failure, spawned.2 = .error failure → ∀ moves,
      (play machinery before (.begin step :: moves)).tasks[before.tasks.size]? =
        some (.ended before.state.now (.result (.error failure))) ∧
      ∀ turn ∈ turnsOfStep machinery before step moves,
        turn.2.fleet.registry = turn.1.fleet.registry) ∧
    ∀ id, spawned.2 = .ok id →
      ∃ p, spawned.1.process? id = some p ∧
        (track = true → spawned.1.registry.TracksAt p.pid id) ∧ ∀ moves,
        let after := play machinery before (.begin step :: moves)
        ∃ task, after.tasks[before.tasks.size]? = some task ∧
          (∀ turn ∈ turnsOfStep machinery before step moves,
            Registry.ChangedAt p.pid track turn.1.fleet.registry turn.2.fleet.registry) ∧
          (track = true → Spared p.pid id (move machinery before (.begin step)) moves →
            (timedOut? task = none → after.state.fleet.registry.TracksAt p.pid id) ∧
            ((timedOut? task).isSome = true →
              (∃ code, after.state.fleet.exitCode? id = some code) ∧
                ¬ after.state.fleet.Tracks id)) := by
  intro start before spawned hs hstep hl
  have hlater : Later machinery start before := Later.refl.play first
  refine ⟨fun text h => ?_, fun failure h moves => ?_, fun id h => ?_⟩
  · obtain ⟨hstate, -⟩ := launch_failing hstep hl (Prod.ext rfl h)
    have hfleet : spawned.1 = before.state.fleet := Fleet.startTracked_usage (Prod.ext rfl h)
    refine hstate.trans ?_
    change ({ before.state with fleet := spawned.1 } : Session) = before.state
    rw [hfleet]
  · obtain ⟨hstate, htask⟩ := launch_failing hstep hl (Prod.ext rfl h)
    refine ⟨ended_later htask (Later.refl.settle.play moves), fun turn hturn => ?_⟩
    rw [turnsOfStep_of_ended machinery_punctual htask rfl] at hturn
    rw [List.mem_singleton.mp hturn, hstate]
    exact Fleet.registry_startTracked_error (Prod.ext rfl h)
  · have hspawn : before.state.fleet.startTracked before.state.settings
        (before.state.holds before.activities) request track = (spawned.1, .ok id) := Prod.ext rfl h
    obtain ⟨p, hp, -⟩ := (Fleet.spawned_startTracked hspawn).1.fresh
    refine ⟨p, hp, ?_, fun moves => ?_⟩
    · rintro rfl
      exact Fleet.tracksAt_startTracked hspawn hp
    · obtain ⟨task, hafter, hmodest⟩ := (upheld_modest before.tasks.size).step machinery_punctual
        (modest_launch hstep hl hspawn hp) moves
      refine ⟨task, hafter, hmodest.turns, ?_⟩
      rintro rfl hspared
      -- the entry is watched from the launch on, through all that may be begun meanwhile
      have hbegun := hlater.launch step
      have hfirst := watched_launch hlater (referring_later hs hlater) hstep hl hspawn hp
      obtain ⟨x, hx, hfate⟩ := ((hfirst.settle hbegun).play hbegun.settle hspared).fate
      obtain rfl : task = x := Option.some.inj (hafter.symm.trans hx)
      exact hfate.entry

/-- A run takes too long. If its caller waits for its failure the process is taken off; if the
caller gives it up while the process is being stopped, the process is still tracked. -/
theorem commands_keep_registry_of_slow_run :
    let program : Program :=
      { shell := { pid := 100, ppid := 1, pgid := 100, onTerm := some 10 }
        events := [(3, .output [97, 10]), (2000000005, .output [98])] }
    let start : Timeline Session Activity Result :=
      { state := ({} : Session).afresh { programs := [.program program] } [] }
    let request : Request := { command := "wrangler build" }
    let command : Command := .run request (some (.ofDecimal 2 0)) false true
    let step : Step Command := .background "build" (.act command)
    let before := play machinery start []
    let spawned := before.state.fleet.startTracked before.state.settings
      (before.state.holds before.activities) request true
    let ticks : List (Move Command) := List.replicate 5 .tick
    let cancelling : List (Move Command) := [.tick, .tick, .begin (.cancel "build")]
    let waited := play machinery before (.begin step :: ticks)
    let givenUp := play machinery before (.begin step :: cancelling)
    before.state.launching? command = some (request, true) ∧ spawned.2 = .ok 0 ∧
      (∃ p, spawned.1.process? 0 = some p ∧ spawned.1.registry.TracksAt p.pid 0 ∧
        givenUp.state.fleet.registry.TracksAt p.pid 0) ∧
      waited.tasks[before.tasks.size]?.bind timedOut? = some (2050000000, "a\nb") ∧
      (∃ code, waited.state.fleet.exitCode? 0 = some code) ∧
      ¬ waited.state.fleet.Tracks 0 ∧
      givenUp.tasks[before.tasks.size]?.map Task.isPending = some false := by
  intro program start request command step before spawned ticks cancelling waited givenUp
  have hstep : step.command? = some command := rfl
  have hl : before.state.launching? command = some (request, true) := rfl
  have hid : spawned.2 = .ok 0 := by decide +kernel
  have hwaited : waited.tasks[before.tasks.size]?.bind timedOut? = some (2050000000, "a\nb") := by
    decide +kernel
  have hgivenUp : givenUp.tasks[before.tasks.size]?.bind timedOut? = none ∧
      givenUp.tasks[before.tasks.size]?.map Task.isPending = some false := by decide +kernel
  have hticks : ∀ step, .begin step ∈ ticks → step.command? = none := fun step h =>
    nomatch List.eq_of_mem_replicate h
  have hcancelling : ∀ step, .begin step ∈ cancelling → step.command? = none := by
    intro step h
    obtain rfl : step = .cancel "build" := by simpa [cancelling] using h
    rfl
  subst givenUp waited spawned before step command request start
  obtain ⟨-, -, hok⟩ := commands_keep_registry {} { programs := [.program program] } [] [] rfl
    hstep hl
  obtain ⟨p, hp, htracks, hmoves⟩ := hok 0 hid
  obtain ⟨task, htask, -, hfate⟩ := hmoves ticks
  obtain ⟨other, hother, -, hkept⟩ := hmoves cancelling
  have hover : (timedOut? task).isSome = true := by
    rw [htask] at hwaited
    exact Option.isSome_of_eq_some hwaited
  have hnot : timedOut? other = none := by
    rw [hother] at hgivenUp
    exact hgivenUp.1
  obtain ⟨hcode, hnone⟩ := (hfate rfl (spared_of_idle hticks)).2 hover
  have hat := (hkept rfl (spared_of_idle hcancelling)).1 hnot
  exact ⟨hl, hid, ⟨p, hp, htracks rfl, hat⟩, hwaited, hcode, hnone, hgivenUp.2⟩

/-- The shell of a run has exited, its pipe is still held open, and its pid has been given to
another process. That one takes the place in the registry, and the run ends well with no entry,
although nobody has taken its process off and there has been no teardown. -/
theorem entry_lost_to_reused_pid :
    let shell : ProcessSpec := { pid := 100, ppid := 1, pgid := 100 }
    let build : Program :=
      { shell, holdsPipe := true, events := [(10000000, .exit 0), (500000000, .endOfPipe)] }
    let start : Timeline Session Activity Result :=
      { state := ({} : Session).afresh { programs := [.program build, .program { shell }] } [] }
    let limit := some (.ofDecimal 5 0)
    let run : Step Command :=
      .background "build" (.act (.run { command := "wrangler build" } limit false true))
    let dev : Step Command := .act (.start "dev" { command := "wrangler dev" } true)
    let begun := play machinery start [.begin run]
    let reused := play machinery begun [.begin (.pause 20000000), .tick, .tick, .begin dev]
    let ended := play machinery reused [.tick, .tick]
    begun.state.fleet.registry.TracksAt 100 0 ∧
      reused.tasks[0]?.map Task.isPending = some true ∧ ¬ reused.state.fleet.Tracks 0 ∧
      ended.tasks[0]?.map Task.isPending = some false ∧
      ended.tasks[0]?.bind timedOut? = none ∧ ¬ ended.state.fleet.Tracks 0 := by
  decide +kernel

end

end Session

end Overseer
