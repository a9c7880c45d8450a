import Overseer.Proofs.Session.SettledSessions
import Overseer.Proofs.Supervision.ExitCodes
import Overseer.Proofs.Timeline.TaskTurns
import Overseer.Proofs.Tree.Killing

/-!
# Callers who wait for one process, and callers who stop it

Any number of callers may wait for the end of a process and stop it, at any times. All who wait and
are not cancelled get the code of the shell at the moment at which the log closes (`Awaited`), and
whoever is cancelled makes no difference. Whoever has stopped a process finds it exited, and from
then on nobody does anything in order to stop it.
-/

namespace Overseer

open World

namespace Session

open Timeline

/-- What has come of a wait for the end of a process that began at some moment, where it is known
when the log of the process has been closed. -/
inductive Awaited (s : Session) (id : ProcessId) (began : Instant)
    (logEnd : Option Instant) : Task Activity Result → Prop where
  | cancelled {time} : Awaited s id began logEnd (.ended time .cancelled)
  | waiting : logEnd = none → Awaited s id began logEnd (.pending (.act (.ending id .code)))
  /-- The wait ends when the log is closed, or at once if that has been before, with the code with
  which the shell has ended. -/
  | returned {cut code p c} : logEnd = some cut → s.fleet.view? id = some (p, c) →
      p.exitCode? = some code → c.exitCode = some code →
      Awaited s id began logEnd (.ended (max began cut) (.result (.ok (.code code))))

def HasExited (s : Session) (id : ProcessId) : Prop :=
  ∃ p, s.fleet.process? id = some p ∧ p.isRunning = false ∧ p.log.closed = true ∧
    p.exitCode?.isSome = true

variable {s : Session} {w : System} {others : List Birth} {t u : Timeline Session Activity Result}
  {id : ProcessId} {task : TaskId} {ch : ProcessId → Chronicle} {began : Instant} {code : Int}

theorem pollEnd_of_none {report : EndReport} (h : s.fleet.exitCode? id = none) :
    pollEnd id report s = (s, .pending (.ending id report)) := by
  unfold pollEnd
  rw [h]

theorem pollEnd_code (h : s.fleet.exitCode? id = some code) :
    pollEnd id .code s = (s, .done (.ok (.code code))) := by
  unfold pollEnd
  rw [h]
  rfl

def Open (task : TaskId) (id : ProcessId) (t : Timeline Session Activity Result) : Prop :=
  t.tasks[task]? = some (.pending (.act (.ending id .code)))

def Shut (task : TaskId) (id : ProcessId) (now : Instant)
    (t : Timeline Session Activity Result) : Prop :=
  ∃ code, t.tasks[task]? = some (.ended now (.result (.ok (.code code)))) ∧
    t.state.fleet.exitCode? id = some code

theorem Shut.later {now : Instant} (h : Shut task id now t) (hlater : Later machinery t u) :
    Shut task id now u := by
  obtain ⟨code, htask, hcode⟩ := h
  exact ⟨code, ended_later htask hlater, exitCode?_later hcode hlater⟩

theorem Open.pollTask_self (h : Open task id t) :
    Open task id (pollTask machinery t task) ∨
      Shut task id t.state.now (pollTask machinery t task) := by
  obtain ⟨hstate, htask⟩ := pollTask_pending (m := machinery) h
  have hpoll : pollErrand machinery t (.act (.ending id .code)) =
      ((pollEnd id .code t.state).1,
        .ofProgress (pollEnd id .code t.state).1.now (pollEnd id .code t.state).2) := rfl
  rw [hpoll] at hstate htask
  cases hx : t.state.fleet.exitCode? id with
  | none =>
    rw [pollEnd_of_none hx] at htask
    exact .inl htask
  | some code =>
    rw [pollEnd_code hx] at hstate htask
    exact .inr ⟨code, htask, by rw [hstate, hx]⟩

/-- When everything has settled, a wait is under way if the end has not been reported, and has ended
otherwise. -/
theorem Open.settle (h : Open task id t) :
    Open task id (settle machinery t) ∧ (settle machinery t).state.fleet.exitCode? id = none ∨
      Shut task id t.state.now (settle machinery t) := by
  have hgoing : (Timeline.settle machinery t).state.now = t.state.now ∧
      (Open task id (Timeline.settle machinery t) ∨
        Shut task id t.state.now (Timeline.settle machinery t)) := by
    refine settle_induction (m := machinery) (P := fun u => u.state.now = t.state.now ∧
      (Open task id u ∨ Shut task id t.state.now u)) ?_ ?_ ?_ ⟨rfl, .inl h⟩
    · rintro u ⟨hnow, hu⟩
      exact ⟨(machinery_punctual.now_deliver u.state).trans hnow,
        hu.imp_right fun hshut => hshut.later (.deliver .refl)⟩
    · rintro u ⟨hnow, hu⟩
      exact ⟨(machinery_punctual.now_complete u.state).trans hnow,
        hu.imp_right fun hshut => hshut.later (.complete .refl)⟩
    · rintro u other ⟨hnow, hopen | hshut⟩
      · refine ⟨(now_pollTask u other).trans hnow, ?_⟩
        by_cases hne : other = task
        · subst hne
          exact hnow ▸ hopen.pollTask_self
        · exact .inl ((pollTask_of_ne hne).trans hopen)
      · exact ⟨(now_pollTask u other).trans hnow, .inr (hshut.later (.poll other .refl))⟩
  exact hgoing.2.imp_left fun hopen => ⟨hopen, waiting_settle t task _ hopen⟩

/-- A code that has been reported is that with which the shell has ended. -/
theorem view_of_exitCode? (h : t.state.fleet.Honest) (hx : t.state.fleet.exitCode? id = some code) :
    ∃ p c, t.state.fleet.view? id = some (p, c) ∧ p.exitCode? = some code ∧
      c.exitCode = some code := by
  obtain ⟨p, hp, hcode⟩ := Option.bind_eq_some_iff.mp hx
  obtain ⟨c, hv⟩ := h.orderly.paired.of_process hp
  refine ⟨p, c, hv, hcode, h.truthful id p c hv code ?_⟩
  rw [Supervised.exitCode?_eq_some_iff.mp hcode]
  rfl

/-- A wait that is under way when a move has begun: it goes on, or ends now with the log. -/
theorem awaited_of_open {x : Move Command} (h : Faithful t ch)
    (hhonest : (move machinery t x).state.fleet.Honest)
    (hp : (t.state.fleet.process? id).isSome = true) (hbegan : began ≤ t.state.now)
    (hnone : (ch id).logEnd = none) (hopen : Open task id (stir machinery t x)) :
    ∃ y, (move machinery t x).tasks[task]? = some y ∧
      Awaited (move machinery t x).state id began
        ((ch id).observe id t.state.fleet (stir machinery t x).state.fleet
          (move machinery t x).state.fleet).logEnd y := by
  have hexit := (h.move x).exitCode? (exists_later hp (later_move t x))
  have hlate := (logEnd_observe (ch id) id t.state.fleet (stir machinery t x).state.fleet
    (move machinery t x).state.fleet).2 hnone
  have hle := Nat.le_trans hbegan (h.now_le_move x)
  rcases hopen.settle with ⟨htask, hx⟩ | ⟨code, htask, hcode⟩
  · rcases hexit with ⟨-, hend⟩ | ⟨code, cut, hcode, -, -⟩
    · exact ⟨_, htask, .waiting hend⟩
    · cases hcode.symm.trans hx
  · rcases hexit with ⟨hx, -⟩ | ⟨-, cut, -, hend, -⟩
    · cases hcode.symm.trans hx
    · obtain ⟨p, c, hv, hpcode, hccode⟩ := view_of_exitCode? hhonest hcode
      have hnow : cut = (move machinery t x).state.now := hlate cut hend
      have hmax : (stir machinery t x).state.now = max began cut := by
        rw [Nat.max_eq_right (hnow ▸ hle), hnow, now_move]
      rw [hmax] at htask
      exact ⟨_, htask, .returned hend hv hpcode hccode⟩

theorem Awaited.move {y : Task Activity Result} {x : Move Command}
    (h : Awaited t.state id began (ch id).logEnd y) (htask : t.tasks[task]? = some y)
    (hfaithful : Faithful t ch) (hhonest : (Timeline.move machinery t x).state.fleet.Honest)
    (hp : (t.state.fleet.process? id).isSome = true) (hbegan : began ≤ t.state.now) :
    ∃ z, (Timeline.move machinery t x).tasks[task]? = some z ∧
      Awaited (Timeline.move machinery t x).state id began
        ((ch id).observe id t.state.fleet (stir machinery t x).state.fleet
          (Timeline.move machinery t x).state.fleet).logEnd z := by
  have hlater := later_move t x
  cases h with
  | cancelled => exact ⟨_, ended_later htask hlater, .cancelled⟩
  | returned hend hv hpcode _ =>
    have hx := exitCode?_later (exitCode?_of_view hv hpcode) hlater
    obtain ⟨q, d, hv, hqcode, hdcode⟩ := view_of_exitCode? hhonest hx
    exact ⟨_, ended_later htask hlater,
      .returned ((logEnd_observe _ id _ _ _).1 _ hend) hv hqcode hdcode⟩
  | waiting hnone =>
    have hstirred : Open task id (stir machinery t x) ∨
        ∃ time, (stir machinery t x).tasks[task]? = some (.ended time .cancelled) := by
      cases x with
      | begin step =>
        rcases launch_task (m := machinery) htask step with hsame | ⟨-, time, -, hcancelled⟩
        · exact .inl hsame
        · exact .inr ⟨time, hcancelled⟩
      | tick =>
        unfold stir
        cases nextMoment machinery t with
        | none => exact .inl htask
        | some moment => exact .inl htask
    rcases hstirred with hopen | ⟨time, hcancelled⟩
    · exact awaited_of_open hfaithful hhonest hp hbegan hnone hopen
    · exact ⟨_, ended_settle hcancelled, .cancelled⟩

theorem Awaited.play {start : Timeline Session Activity Result} {y : Task Activity Result}
    (hstart : start = { state := s.afresh w others }) (hlater : Later machinery start t)
    (hfaithful : Faithful t ch) (h : Awaited t.state id began (ch id).logEnd y)
    (htask : t.tasks[task]? = some y) (hp : (t.state.fleet.process? id).isSome = true)
    (hbegan : began ≤ t.state.now) (moves : List (Move Command)) :
    ∃ z, (Timeline.play machinery t moves).tasks[task]? = some z ∧
      Awaited (Timeline.play machinery t moves).state id began
        (chronicle id t (ch id) moves).logEnd z := by
  induction moves generalizing t ch y with
  | nil => exact ⟨y, htask, h⟩
  | cons x moves ih =>
    have hmoved : Later machinery start (Timeline.move machinery t x) :=
      hlater.trans (later_move t x)
    obtain ⟨z, hz, hawaited⟩ := h.move (x := x) htask hfaithful (honest_later (hstart ▸ hmoved)) hp
      hbegan
    exact ih hmoved (hfaithful.move x) hawaited hz (exists_later hp (later_move t x))
      (Nat.le_trans hbegan (hfaithful.now_le_move x))

theorem awaited_begin {step : Step Command} {name : String} {handle : Handle}
    (hstep : step.command? = some (.wait name)) (hhandle : t.state.handle? name = some handle)
    (h : Faithful t ch) (hhonest : (move machinery t (.begin step)).state.fleet.Honest)
    (hp : (t.state.fleet.process? handle.process).isSome = true) :
    ∃ y, (move machinery t (.begin step)).tasks[t.tasks.size]? = some y ∧
      Awaited (move machinery t (.begin step)).state handle.process t.state.now
        ((ch handle.process).observe handle.process t.state.fleet
          (stir machinery t (.begin step)).state.fleet
          (move machinery t (.begin step)).state.fleet).logEnd y := by
  obtain ⟨hstate, htask, -⟩ := launch_command (m := machinery) hstep t
  have hstart : machinery.start t.activities (.wait name) t.state =
      pollEnd handle.process .code t.state := by
    change t.state.withHandle name _ = _
    unfold withHandle
    rw [hhandle]
  rw [hstart] at hstate htask
  rcases h.exitCode? hp with ⟨hx, hnone⟩ | ⟨code, cut, hx, hend, hcut⟩
  · rw [pollEnd_of_none hx] at htask
    exact awaited_of_open h hhonest hp (Nat.le_refl _) hnone htask
  · rw [pollEnd_code hx] at htask
    have hlater := later_move t (.begin step)
    obtain ⟨p, c, hv, hpcode, hccode⟩ := view_of_exitCode? hhonest (exitCode?_later hx hlater)
    refine ⟨_, ended_settle htask, ?_⟩
    have hmax : machinery.now t.state = max t.state.now cut := (Nat.max_eq_left hcut).symm
    rw [hmax]
    exact .returned ((logEnd_observe _ _ _ _ _).1 _ hend) hv hpcode hccode

/-- What has come of stopping a process: it has succeeded only if the end has been reported. -/
inductive Halting (s : Session) (id : ProcessId) : Task Activity Result → Prop where
  | stopping {x : Stopping} : x.process = id → Halting s id (.pending (.act (.stopping x)))
  | cancelled {time} : Halting s id (.ended time .cancelled)
  | failed {time failure} : Halting s id (.ended time (.result (.error failure)))
  | stopped {time code} : s.fleet.exitCode? id = some code →
      Halting s id (.ended time (.result (.ok .nothing)))

theorem Halting.later {y : Task Activity Result} (h : Halting t.state id y)
    (hlater : Later machinery t u) : Halting u.state id y := by
  cases h with
  | stopping hx => exact .stopping hx
  | cancelled => exact .cancelled
  | failed => exact .failed
  | stopped hcode => exact .stopped (exitCode?_later hcode hlater)

theorem exitCode?_of_not_running {f : Fleet} (hp : (f.process? id).isSome = true)
    (h : f.isRunning id = false) : ∃ code, f.exitCode? id = some code :=
  Option.ne_none_iff_exists'.mp (exitCode?_ne_none hp h)

theorem not_running_of_exitCode? {f : Fleet} {code : Int} (h : f.exitCode? id = some code) :
    f.isRunning id = false := by
  obtain ⟨p, hp, hcode⟩ := Option.bind_eq_some_iff.mp h
  rw [Fleet.isRunning, hp]
  exact Supervised.isRunning_eq_false_iff.mpr (Option.isSome_iff_exists.mpr ⟨code, hcode⟩)

/-- What comes of waiting for the report when the tree has been ended. -/
theorem halting_awaitEnd {x : Stopping} {f : Fleet} (hx : x.process = id)
    (hp : (f.process? id).isSome = true) (s : Session) (now : Instant) :
    let going := s.goOn .stopping (x.awaitEnd f)
    Halting going.1 id (.ofProgress now going.2) := by
  subst hx
  unfold Stopping.awaitEnd
  cases hrunning : f.isRunning x.process with
  | true =>
    rw [if_pos rfl]
    exact .stopping rfl
  | false =>
    obtain ⟨code, hcode⟩ := exitCode?_of_not_running hp hrunning
    rw [if_neg Bool.false_ne_true]
    exact Halting.stopped hcode

theorem halting_poll {x : Stopping} {f : Fleet} (hx : x.process = id)
    (hp : (f.process? id).isSome = true) (s : Session) (now : Instant) :
    let going := s.goOn .stopping (x.poll f)
    Halting going.1 id (.ofProgress now going.2) := by
  unfold Stopping.poll
  split
  · exact halting_awaitEnd hx hp s now
  · split
    · exact .stopping hx
    · exact .failed
    next scene hdone => exact halting_awaitEnd (f := { f with scene }) hx hp s now

theorem halting_later {y : Task Activity Result} (htask : t.tasks[task]? = some y)
    (h : Halting t.state id y) (hp : (t.state.fleet.process? id).isSome = true)
    (hlater : Later machinery t u) : ∃ z, u.tasks[task]? = some z ∧ Halting u.state id z := by
  suffices hall : (u.state.fleet.process? id).isSome = true ∧
      ∃ z, u.tasks[task]? = some z ∧ Halting u.state id z from hall.2
  refine Later.induction (m := machinery) (t := t)
    (P := fun u => (u.state.fleet.process? id).isSome = true ∧
      ∃ z, u.tasks[task]? = some z ∧ Halting u.state id z) ?_ ?_ ?_ ?_ ?_ ⟨hp, y, htask, h⟩ hlater
  · rintro u step ⟨hp, z, hz, hhalting⟩
    have hnext : Later machinery u (launch machinery u step) := .launch step .refl
    refine ⟨exists_later hp hnext, ?_⟩
    rcases launch_task (m := machinery) hz step with hsame | ⟨-, time, -, hcancelled⟩
    · exact ⟨z, hsame, hhalting.later hnext⟩
    · exact ⟨_, hcancelled, .cancelled⟩
  · rintro u moment ⟨hp, z, hz, hhalting⟩
    exact ⟨hp, z, hz, hhalting.later (.advance moment .refl)⟩
  · rintro u ⟨hp, z, hz, hhalting⟩
    exact ⟨exists_later hp (.deliver .refl), z, hz, hhalting.later (.deliver .refl)⟩
  · rintro u ⟨hp, z, hz, hhalting⟩
    exact ⟨exists_later hp (.complete .refl), z, hz, hhalting.later (.complete .refl)⟩
  · rintro u other ⟨hp, z, hz, hhalting⟩
    have hnext : Later machinery u (pollTask machinery u other) := .poll other .refl
    refine ⟨exists_later hp hnext, ?_⟩
    by_cases hne : other = task
    · subst hne
      cases hhalting with
      | stopping hx =>
        rw [pollTask_eq hz]
        exact ⟨_, Array.getElem?_setIfInBounds_self_of_lt (Array.getElem?_eq_some_iff.mp hz).1,
          halting_poll hx hp u.state _⟩
      | cancelled => exact ⟨_, ended_pollTask hz, .cancelled⟩
      | failed => exact ⟨_, ended_pollTask hz, .failed⟩
      | stopped hcode => exact ⟨_, ended_pollTask hz, .stopped (exitCode?_later hcode hnext)⟩
    · exact ⟨z, (pollTask_of_ne hne).trans hz, hhalting.later hnext⟩

theorem hasExited_of_exitCode? (hall : t.state.fleet.Each Supervised.Consistent)
    (hx : t.state.fleet.exitCode? id = some code) : t.state.HasExited id := by
  obtain ⟨p, hp, hrunning, hclosed, hcode⟩ := Fleet.exited_of_exitCode? hall hx
  exact ⟨p, hp, hrunning, hclosed, Option.isSome_iff_exists.mpr ⟨code, hcode⟩⟩

theorem start_kill {name : String} {handle : Handle} (hhandle : s.handle? name = some handle)
    (peers : List Activity) :
    machinery.start peers (.kill name) s =
      s.goOn .stopping (Stopping.start handle.process s.fleet) := by
  change s.withHandle name _ = _
  unfold withHandle
  rw [hhandle]

theorem stoppingStart_of_exited (h : s.HasExited id) :
    Stopping.start id s.fleet = (s.fleet, .done (.ok ())) := by
  obtain ⟨p, hp, hrunning, -, -⟩ := h
  unfold Stopping.start
  rw [hp]
  dsimp only
  rw [if_neg (by simp [hrunning])]

theorem halting_launch {step : Step Command} {name : String} {handle : Handle}
    (hstep : step.command? = some (.kill name)) (hhandle : t.state.handle? name = some handle)
    (hp : (t.state.fleet.process? handle.process).isSome = true) :
    ∃ y, (launch machinery t step).tasks[t.tasks.size]? = some y ∧
      Halting (launch machinery t step).state handle.process y := by
  obtain ⟨hstate, htask, -⟩ := launch_command (m := machinery) hstep t
  rw [start_kill hhandle] at hstate htask
  refine ⟨_, htask, ?_⟩
  rw [hstate]
  unfold Stopping.start
  cases hq : t.state.fleet.process? handle.process with
  | none =>
    rw [hq] at hp
    cases hp
  | some p =>
    dsimp only
    split
    · exact halting_poll rfl hp t.state _
    next hrunning =>
      have hstopped : t.state.fleet.isRunning handle.process = false := by
        rw [Fleet.isRunning, hq]
        simpa using hrunning
      obtain ⟨code, hcode⟩ := exitCode?_of_not_running hp hstopped
      exact Halting.stopped hcode

/-- Callers who wait for one process and callers who stop it agree, however many there are and
whenever they come. Whoever waits and is not cancelled gets the code with which the shell has ended,
at the moment at which the log closes, or at once. To cancel a wait makes no difference to the
session at any later time. Whoever has succeeded in stopping the process finds it exited, then and
ever after; whoever begins to stop it when it has exited is done at once and changes nothing. -/
theorem callers_agree (s : Session) (w : System) (others : List Birth)
    (first : List (Move Command)) {name : String} {handle : Handle} :
    let start : Timeline Session Activity Result := { state := s.afresh w others }
    let before := play machinery start first
    let id := handle.process
    before.state.handle? name = some handle → (before.state.fleet.process? id).isSome = true →
    (∀ step moves, step.command? = some (.wait name) →
      let after := play machinery before (.begin step :: moves)
      ∃ task, after.tasks[before.tasks.size]? = some task ∧
        Awaited after.state id before.state.now
          (chronicle id start {} (first ++ .begin step :: moves)).logEnd task) ∧
    (∀ caller nobody task moves, before.names.lookup caller = some task →
      before.tasks[task]? = some (.pending (.act (.ending id .code))) →
      before.names.lookup nobody = none →
      (play machinery before (.begin (.cancel caller) :: moves)).state =
        (play machinery before (.begin (.cancel nobody) :: moves)).state) ∧
    (∀ step, step.command? = some (.kill name) →
      let begun := launch machinery before step
      (∀ u time answer, Later machinery begun u →
        u.tasks[before.tasks.size]? = some (.ended time (.result (.ok answer))) →
        u.state.HasExited id) ∧
      (before.state.HasExited id → ∀ moves,
        begun.tasks[before.tasks.size]? =
          some (.ended before.state.now (.result (.ok .nothing))) ∧
        turnsOfStep machinery before step moves = [(before.state, before.state)])) := by
  intro start before id hhandle hp
  have hbefore : Later machinery start before := Later.refl.play first
  have hfaithful : Faithful before fun id => chronicle id start {} first :=
    (faithful_afresh s w others).play first
  refine ⟨fun step moves hstep => ?_, fun caller nobody task moves hcaller htask hnobody => ?_,
    fun step hstep => ⟨fun u time answer hlater hended => ?_, fun hexited moves => ?_⟩⟩
  -- a waiter: what it awaits is the end that the chronicle tells
  · have hmoved : Later machinery start (move machinery before (.begin step)) :=
      hbefore.trans (later_move before (.begin step))
    obtain ⟨y, hy, hawaited⟩ := awaited_begin hstep hhandle hfaithful (honest_later hmoved) hp
    have hplayed := Awaited.play rfl hmoved (hfaithful.move (.begin step)) hawaited hy
      (exists_later hp (later_move before (.begin step)))
        (hfaithful.now_le_move (.begin step)) moves
    rwa [chronicle_append]
  · exact state_play_cancel hfaithful hcaller htask hp hnobody moves
  · have hbegun : Later machinery before (launch machinery before step) := .launch step .refl
    obtain ⟨y, hy, hhalting⟩ := halting_launch hstep hhandle hp
    obtain ⟨z, hz, hhalted⟩ := halting_later hy hhalting (exists_later hp hbegun) hlater
    obtain rfl := Option.some.inj (hz.symm.trans hended)
    cases hhalted with
    | stopped hcode =>
      exact hasExited_of_exitCode? (consistent_later (hbefore.trans (hbegun.trans hlater))) hcode
  · obtain ⟨hstate, htask, -⟩ := launch_command (m := machinery) hstep before
    rw [start_kill hhandle, stoppingStart_of_exited hexited] at hstate htask
    refine ⟨htask, ?_⟩
    rw [turnsOfStep_of_ended machinery_punctual htask rfl moves, hstate]
    rfl

def waited? : Task Activity Result → Option (Instant × Int)
  | .ended time (.result (.ok (.code code))) => some (time, code)
  | _ => none

def awaits? : Task Activity Result → Option ProcessId
  | .pending (.act (.ending id .code)) => some id
  | _ => none

theorem awaits?_eq_some_iff {y : Task Activity Result} :
    awaits? y = some id ↔ y = .pending (.act (.ending id .code)) := by
  unfold awaits?
  split <;> simp_all

/-- The shell has ended and its pipe is still open. Of two callers who wait, the first is cancelled;
somebody stops the process; and when it has exited somebody stops it again. -/
theorem callers_agree_while_draining :
    let program : Program :=
      { shell := { pid := 100, ppid := 1, pgid := 100 }, holdsPipe := true
        events := [(3, .output [97, 10]), (5, .exit 7), (9, .endOfPipe)] }
    let start : Timeline Session Activity Result :=
      { state := ({} : Session).afresh { programs := [.program program] } [] }
    let first : List (Move Command) :=
      [.begin (.act (.start "h" { command := "wrangler dev" } false)),
       .begin (.background "a" (.act (.wait "h"))), .tick, .tick]
    let before := play machinery start first
    let longer := first ++ [.tick]
    let later := play machinery start longer
    let wait : Step Command := .background "b" (.act (.wait "h"))
    let kill : Step Command := .act (.kill "h")
    let after := play machinery before (.begin wait :: [.begin (.cancel "a"), .tick])
    let stopped := play machinery (launch machinery before kill) [.tick]
    before.state.now = 5 ∧ before.state.fleet.isRunning 0 = true ∧
      after.tasks[before.tasks.size]?.bind waited? = some (9, 7) ∧
      (∃ p c, after.state.fleet.view? 0 = some (p, c) ∧ p.exitCode? = some 7 ∧
        c.exitCode = some 7) ∧
      (play machinery before [.begin (.cancel "a"), .tick]).state =
        (play machinery before [.begin (.cancel "x"), .tick]).state ∧
      stopped.state.now = 9 ∧ stopped.state.HasExited 0 ∧
      turnsOfStep machinery later kill [] = [(later.state, later.state)] := by
  intro program start first before longer later wait kill after stopped
  let handle : Handle := { process := 0, command := "wrangler dev", readLimit := .ofDecimal 10 0 }
  have hhandle : before.state.handle? "h" = some handle := by decide +kernel
  have hlate : later.state.handle? "h" = some handle := by decide +kernel
  have hp : (before.state.fleet.process? handle.process).isSome = true := by decide +kernel
  have hpl : (later.state.fleet.process? handle.process).isSome = true := by decide +kernel
  have hwaited : after.tasks[before.tasks.size]?.bind waited? = some (9, 7) := by decide +kernel
  have hanswered : stopped.tasks[before.tasks.size]?.any isAnswered = true := by decide +kernel
  have hwaiting : before.tasks[1]?.bind awaits? = some 0 := by decide +kernel
  have hnames : before.names.lookup "a" = some 1 ∧ before.names.lookup "x" = none := by
    decide +kernel
  have htimes : before.state.now = 5 ∧ before.state.fleet.isRunning 0 = true ∧
      stopped.state.now = 9 := by decide +kernel
  have hexited : (later.state.fleet.process? 0).any
      (fun p => !p.isRunning && p.log.closed && p.exitCode?.isSome) = true := by decide +kernel
  subst stopped after later before longer first start program
  obtain ⟨hwaits, hcancels, hkills⟩ := callers_agree _ _ _ _ hhandle hp
  obtain ⟨-, -, hagain⟩ := callers_agree _ _ _ _ hlate hpl
  refine ⟨htimes.1, htimes.2.1, hwaited, ?_, ?_, htimes.2.2, ?_, ?_⟩
  · obtain ⟨task, htask, hawaited⟩ := hwaits wait [.begin (.cancel "a"), .tick] rfl
    rw [htask] at hwaited
    cases hawaited with
    | cancelled => cases hwaited
    | waiting => cases hwaited
    | @returned cut code p c hend hv hpcode hccode =>
      have hcode : code = 7 := (Prod.mk.inj (Option.some.inj hwaited)).2
      exact ⟨p, c, hv, hcode ▸ hpcode, hcode ▸ hccode⟩
  · obtain ⟨task, htask, hw⟩ := Option.bind_eq_some_iff.mp hwaiting
    obtain rfl := awaits?_eq_some_iff.mp hw
    exact hcancels "a" "x" 1 [.tick] hnames.1 htask hnames.2
  · obtain ⟨task, htask, hanswer⟩ := (Option.any_eq_true _ _).mp hanswered
    obtain ⟨time, answer, rfl⟩ := isAnswered_iff.mp hanswer
    exact (hkills kill rfl).1 _ time answer (Later.refl.play [.tick]) htask
  · obtain ⟨p, hpl, hbool⟩ := (Option.any_eq_true _ _).mp hexited
    simp only [Bool.and_eq_true, Bool.not_eq_true'] at hbool
    exact ((hagain kill rfl).2 ⟨p, hpl, hbool.1.1, hbool.1.2, hbool.2⟩ []).2

end Session

end Overseer
