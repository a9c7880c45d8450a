import Overseer.Proofs.BoundedRun.Overruns

/-!
# What comes of bounded runs

A bounded run waits until the end of its process is reported or its limit runs out. It has no more
than the outcomes of `BoundedRun.Situation`, and when each of them comes is told by the moments at
which the limit runs out and at which the log is closed (`BoundedRun.Dated`).
-/

namespace Overseer

open Overseer.Tree Number World

namespace BoundedRun

open Session Timeline

def verdict (r : BoundedRun) (code : Int) (output : String) : Session.Result :=
  if r.check ∧ code ≠ 0 then .error (.exitStatus r.command code output) else .ok (.text output)

inductive Stage where
  | waiting
  | finished (time : Instant)
  /-- The limit has run out, and the process is or has been stopped. -/
  | stopped (time : Instant)
  | cancelled

/-- What has come of a run. Until its limit has run out it does nothing but wait. -/
inductive Situation (r : BoundedRun) (tree : Termination) (turns : List (Session × Session))
    (s : Session) : Stage → Task Activity Session.Result → Prop where
  | waiting : Inert turns → (∀ d, r.deadline = some d → s.now ≤ d) →
      Situation r tree turns s .waiting (.pending (.act (.run r)))
  | finished {time : Instant} {code : Int} {output : String} : Inert turns →
      (∃ turn ∈ turns, turn.1.now = time) → s.Concluded r.process code output →
      Situation r tree turns s (.finished time) (.ended time (.result (r.verdict code output)))
  | stopped {time : Instant} {early late : List (Session × Session)}
      {task : Task Activity Session.Result} : turns = early ++ late → Inert early →
      r.deadline = some time → Stopped r tree time late s task →
      Situation r tree turns s (.stopped time) task
  | cancelled {time : Instant} : Inert turns →
      Situation r tree turns s .cancelled (.ended time .cancelled)

/-- When a run comes so far, given when its limit runs out and when the log of its process is
closed. If the log is closed first the run ends at that moment, and otherwise it is stopped when the
limit runs out. -/
def Dated (deadline logEnd : Option Instant) (now : Instant) : Stage → Prop
  | .waiting => logEnd = none
  | .finished time => logEnd = some time ∧ ∀ d, deadline = some d → time ≤ d
  | .stopped time => time ≤ now ∧ ∀ cut, logEnd = some cut → time ≤ cut
  | .cancelled => True

section

variable {r : BoundedRun} {tree : Termination} {turns more : List (Session × Session)}
  {a s : Session} {stage : Stage} {task : Task Activity Session.Result} {p : Supervised}

theorem Situation.prepend (h : Situation r tree more s stage task) (hinert : Inert turns) :
    Situation r tree (turns ++ more) s stage task := by
  cases h with
  | waiting hmore hle => exact .waiting (hinert.append hmore) hle
  | finished hmore hturn hconcluded =>
    obtain ⟨turn, hmem, htime⟩ := hturn
    exact .finished (hinert.append hmore) ⟨turn, List.mem_append_right turns hmem, htime⟩ hconcluded
  | stopped hturns hearly hd hstopped =>
    subst hturns
    exact .stopped (List.append_assoc turns _ _).symm (hinert.append hearly) hd hstopped
  | cancelled hmore => exact .cancelled (hinert.append hmore)

theorem finish_verdict (r : BoundedRun) (code : Int) (f : Fleet) :
    (r.finish code f).2.map Answer.text = r.verdict code (f.output r.process) := by
  unfold finish verdict requireSuccess
  cases r.check with
  | false => rfl
  | true => by_cases hc : code = 0 <;> simp [hc, Except.map]

theorem finish_fleet (r : BoundedRun) (code : Int) (f : Fleet) :
    (r.finish code f).1.processes = f.processes ∧ (r.finish code f).1.registry = f.registry ∧
      (r.finish code f).1.scene.system = f.scene.system := by
  unfold finish requireSuccess
  cases r.check with
  | false => exact ⟨rfl, rfl, rfl⟩
  | true => by_cases hc : code = 0 <;> simp [hc, Fleet.report, Scene.report]

/-- The end of the process is reported: the run ends with its answer, and does nothing else. -/
theorem situation_finish (hsane : a.fleet.Sane) {code : Int}
    (hx : a.fleet.exitCode? r.process = some code) :
    let going := a.goOnRun ((r.finish code a.fleet).1, .done (r.finish code a.fleet).2)
    Situation r tree [(a, going.1)] going.1 (.finished a.now)
      (.ofProgress going.1.now going.2) := by
  intro going
  obtain ⟨hprocesses, hregistry, hsystem⟩ := finish_fleet r code a.fleet
  have hnow : going.1.now = a.now := congrArg System.now hsystem
  have hconcluded : going.1.Concluded r.process code (a.fleet.output r.process) := by
    obtain ⟨p, hp, hrest⟩ := concluded_of_exitCode? hsane.consistent hx
    refine ⟨p, ?_, hrest⟩
    rw [Fleet.process?, show going.1.fleet.processes = a.fleet.processes from hprocesses]
    exact hp
  have htask : Task.ofProgress going.1.now going.2 =
      .ended a.now (.result (r.verdict code (a.fleet.output r.process))) := by
    rw [hnow, ← finish_verdict]
    rfl
  rw [htask]
  exact .finished (inert_singleton hregistry hsystem) ⟨_, List.mem_singleton.mpr rfl,
    rfl⟩ hconcluded

/-- A run that waits goes on: the end of its process comes before its limit. -/
theorem situation_poll (hstopping : r.stopping = none) (hsane : a.fleet.Sane)
    (hp : a.fleet.process? r.process = some p) (hle : ∀ d, r.deadline = some d → a.now ≤ d) :
    let going := a.goOnRun (r.poll a.fleet)
    ∃ stage, Situation r (Stopping.terminationOf p) [(a, going.1)] going.1 stage
      (.ofProgress going.1.now going.2) := by
  unfold poll
  rw [hstopping]
  dsimp only
  cases hx : a.fleet.exitCode? r.process with
  | some code => exact ⟨_, situation_finish hsane hx⟩
  | none =>
    dsimp only
    cases hr : Instant.reached a.fleet.now r.deadline with
    | true =>
      rw [if_pos rfl]
      obtain ⟨d, hd, hpast⟩ := Instant.reached_eq_true_iff.mp hr
      obtain rfl : d = a.now := Nat.le_antisymm hpast (hle d hd)
      have hrunning : p.isRunning = true := by
        rw [Fleet.exitCode?, hp, Option.bind_some] at hx
        rw [Supervised.isRunning, hx]
        rfl
      exact ⟨_, .stopped (List.nil_append _).symm inert_nil hd
        (stopped_start hsane hp hrunning (unechoed_singleton (by simp [killNote])))⟩
    | false => exact ⟨_, .waiting (inert_singleton rfl rfl) hle⟩

variable {t u : Timeline Session Activity Session.Result}

def Rooted (r : BoundedRun) (tree : Termination) (f : Fleet) : Prop :=
  ∃ p, f.process? r.process = some p ∧ Stopping.terminationOf p = tree

theorem Rooted.later (h : r.Rooted tree t.state.fleet) (hlater : Later machinery t u) :
    r.Rooted tree u.state.fleet := by
  obtain ⟨p, hp, htree⟩ := h
  obtain ⟨q, hq, hsame⟩ := Supervised.enduring_termination.later hlater hp
  exact ⟨q, hq, hsame.trans htree⟩

/-- Whatever else goes on leaves a run as it is, up to the next moment that the run waits for. -/
theorem Situation.later (hstopping : r.stopping = none)
    (h : Situation r tree turns t.state stage task)
    (hsane : t.state.fleet.Sane) (hlater : Later machinery t u)
    (hnow : u.state.now = t.state.now ∨
      u.state.system = t.state.system.advance u.state.now ∧
        ∀ next, task.wake Session.wake = some next → u.state.now ≤ next) :
    Situation r tree turns u.state stage task := by
  have hconcluded : ∀ code output, t.state.Concluded r.process code output →
      u.state.Concluded r.process code output := fun code output h =>
    h.later hsane.consistent hlater
  cases h with
  | waiting hinert hle =>
    refine .waiting hinert fun d hd => ?_
    rcases hnow with hnow | ⟨-, hwake⟩
    · exact hnow ▸ hle d hd
    · refine hwake d ?_
      change r.wake = some d
      unfold wake
      rw [hstopping]
      exact hd
  | finished hinert hturn hc => exact .finished hinert hturn (hconcluded _ _ hc)
  | stopped hturns hearly hd hstopped =>
    refine .stopped hturns hearly hd ?_
    cases hstopped with
    | unknown htime hm hinert => exact .unknown htime hm hinert
    | sought htime hm ht hages hlate =>
      refine .sought htime hm ht (hages.trans (System.ongoing_ages.later hlater)) ?_
      refine hlate.goes hconcluded (evolves_later hlater) fun y hy hcourse => ?_
      rcases hnow with hnow | ⟨hadvance, hwake⟩
      · exact hcourse.evolves (evolves_later hlater) hnow
      · rw [hadvance]
        exact hcourse.advance fun next hnext => hwake next (hy ▸ hnext)
  | cancelled hinert => exact .cancelled hinert

theorem Situation.cancel {errand : Errand Activity}
    (h : Situation r tree turns s stage (.pending errand)) (time : Instant) :
    ∃ next, (stage = .waiting ∨ next = stage) ∧
      Situation r tree turns s next (.ended time .cancelled) := by
  cases h with
  | waiting hinert => exact ⟨_, .inl rfl, .cancelled hinert⟩
  | stopped hturns hearly hd hstopped =>
    refine ⟨_, .inr rfl, .stopped hturns hearly hd ?_⟩
    cases hstopped with
    | sought htime hm ht hages hlate => exact .sought htime hm ht hages (hlate.cancel time)

theorem Situation.poll {errand : Errand Activity} (hstopping : r.stopping = none)
    (h : Situation r tree turns a stage (.pending errand)) (hsane : a.fleet.Sane)
    (hrooted : r.Rooted tree a.fleet) :
    ∃ run, errand = .act (.run run) ∧
      let going := a.goOnRun (run.poll a.fleet)
      ∃ next, (stage = .waiting ∨ next = stage) ∧
        Situation r tree (turns ++ [(a, going.1)]) going.1 next
          (.ofProgress going.1.now going.2) := by
  obtain ⟨p, hp, rfl⟩ := hrooted
  cases h with
  | waiting hinert hle =>
    obtain ⟨next, hnext⟩ := situation_poll hstopping hsane hp hle
    exact ⟨r, rfl, next, .inl rfl, hnext.prepend hinert⟩
  | stopped hturns hearly hd hstopped =>
    cases hstopped with
    | sought htime hm ht hages hlate =>
      obtain ⟨run, rfl, hgoing⟩ := hlate.poll ht hages hsane hp
      refine ⟨run, rfl, _, .inr rfl, .stopped ?_ hearly hd (.sought htime hm ht ?_ hgoing)⟩
      · rw [hturns, List.append_assoc]
        rfl
      · exact hages.trans (System.ongoing_ages.calls (calls_poll (k := False) .refl run))

/-- The task of a run: what has come of it after some turns, from some stage on. Only a run that
waits comes to another stage. -/
def Tells (r : BoundedRun) (tree : Termination) (start : Timeline Session Activity Session.Result)
    (since : Stage) (turns : List (Session × Session))
    (t : Timeline Session Activity Session.Result) (task : Task Activity Session.Result) : Prop :=
  Later machinery start t ∧ r.Rooted tree t.state.fleet ∧
    ∃ stage, (since = .waiting ∨ stage = since) ∧ Situation r tree turns t.state stage task

/-- What is told of a run is upheld, whatever else goes on in the session. -/
theorem upheld_tells (hstopping : r.stopping = none) {s : Session} {w : System}
    {others : List Birth}
    (since : Stage) (id : TaskId) :
    Upheld machinery id (Tells r tree { state := s.afresh w others } since) where
  still hlater hnow h := by
    obtain ⟨hstart, hrooted, stage, hstage, hsituation⟩ := h
    exact ⟨hstart.trans hlater, hrooted.later hlater, stage, hstage,
      hsituation.later hstopping (sane_later hstart) hlater (.inl hnow)⟩
  tick {turns t task moment} _ htask hnext h := by
    obtain ⟨hstart, hrooted, stage, hstage, hsituation⟩ := h
    have hlater : Later machinery t { t with state := machinery.advance t.state moment } :=
      .advance moment .refl
    refine ⟨hstart.trans hlater, hrooted.later hlater, stage, hstage,
      hsituation.later hstopping (sane_later hstart) hlater (.inr ⟨rfl, fun next hwake => ?_⟩)⟩
    exact nextMoment_le_wake (m := machinery) hnext htask hwake
  cancel {turns t errand time} h := by
    obtain ⟨hstart, hrooted, stage, hstage, hsituation⟩ := h
    obtain ⟨next, hnext, hcancelled⟩ := hsituation.cancel time
    refine ⟨hstart, hrooted, next, ?_, hcancelled⟩
    rcases hstage with hstage | rfl
    · exact .inl hstage
    · exact hnext
  poll {turns t errand} htask h := by
    obtain ⟨hstart, hrooted, stage, hstage, hsituation⟩ := h
    have hlater : Later machinery t (pollTask machinery t id) := .poll id .refl
    have hkept := hrooted.later hlater
    obtain ⟨run, rfl, next, hnext, hpolled⟩ :=
      hsituation.poll hstopping (sane_later hstart) hrooted
    have hstate := (pollTask_pending (m := machinery) htask).1
    refine ⟨hstart.trans hlater, hkept, next, ?_, ?_⟩
    · rcases hstage with hstage | rfl
      · exact .inl hstage
      · exact hnext
    · rw [hstate]
      exact hpolled

theorem Stopped.begun {time : Instant} (h : Stopped r tree time turns s task) :
    ∃ turn ∈ turns, turn.1.now = time := by
  cases h with
  | unknown htime => exact ⟨_, List.mem_cons_self, htime⟩
  | sought htime => exact ⟨_, List.mem_cons_self, htime⟩

def Outcome (r : BoundedRun) (tree : Termination) (start : Timeline Session Activity Session.Result)
    (logEnd : Option Instant) (turns : List (Session × Session))
    (t : Timeline Session Activity Session.Result) (task : Task Activity Session.Result) : Prop :=
  Later machinery start t ∧ r.Rooted tree t.state.fleet ∧
    ∃ stage, Situation r tree turns t.state stage task ∧ Dated r.deadline logEnd t.state.now stage

theorem Dated.of_le {deadline logEnd : Option Instant} {now later : Instant}
    (h : Dated deadline logEnd now stage) (hle : now ≤ later) :
    Dated deadline logEnd later stage := by
  cases stage with
  | stopped time => exact ⟨Nat.le_trans h.1 hle, h.2⟩
  | _ => exact h

/-- The log of a process that is not waited for any more closes now, or has been closed before. -/
theorem Dated.observe {deadline logEnd next : Option Instant} {now : Instant}
    (h : Dated deadline logEnd now stage) (hne : stage ≠ .waiting)
    (hkept : ∀ cut, logEnd = some cut → next = some cut)
    (hnew : logEnd = none → ∀ cut, next = some cut → cut = now) :
    Dated deadline next now stage := by
  cases stage with
  | waiting => exact absurd rfl hne
  | finished time => exact ⟨hkept time h.1, h.2⟩
  | stopped time =>
    refine ⟨h.1, fun cut hcut => ?_⟩
    cases hend : logEnd with
    | none => exact hnew hend cut hcut ▸ h.1
    | some first =>
      obtain rfl := Option.some.inj ((hkept first hend).symm.trans hcut)
      exact h.2 first hend
  | cancelled => trivial

theorem Situation.stage_of_nil (h : Situation r tree [] s stage task) :
    stage = .waiting ∨ stage = .cancelled := by
  cases h with
  | waiting => exact .inl rfl
  | finished _ hturn =>
    obtain ⟨turn, hmem, -⟩ := hturn
    cases hmem
  | stopped hturns _ _ hstopped =>
    obtain ⟨-, rfl⟩ := List.append_eq_nil_iff.mp hturns.symm
    cases hstopped
  | cancelled => exact .inr rfl

/-- In the first turn of a run nothing can have been reported of its process. -/
theorem dated_first {b : Session} (h : Situation r tree [(a, b)] b stage task)
    (hx : b.fleet.exitCode? r.process = none) (hnow : b.now = a.now) :
    Dated r.deadline none b.now stage := by
  cases h with
  | waiting => rfl
  | finished _ _ hconcluded => cases hconcluded.exitCode?.symm.trans hx
  | stopped hturns _ _ hstopped =>
    obtain ⟨turn, hmem, rfl⟩ := hstopped.begun
    obtain rfl : turn = (a, b) := List.mem_singleton.mp (hturns ▸ List.mem_append_right _ hmem)
    exact ⟨Nat.le_of_eq hnow.symm, by simp⟩
  | cancelled => trivial

section

variable {w : System} {others : List Birth} {start : Timeline Session Activity Session.Result}
  {ch : ProcessId → Chronicle} {id : TaskId} {x : Move Command}

theorem outcome_stir (hstart : start = { state := s.afresh w others })
    (hstopping : r.stopping = none)
    (hf : Faithful t ch) (htask : t.tasks[id]? = some task)
    (h : Outcome r tree start (ch r.process).logEnd turns t task) (x : Move Command) :
    ∃ y, (stir machinery t x).tasks[id]? = some y ∧
      Outcome r tree start (ch r.process).logEnd turns (stir machinery t x) y := by
  subst hstart
  obtain ⟨hlater, hrooted, stage, hsituation, hdated⟩ := h
  have hle : t.state.now ≤ (stir machinery t x).state.now := now_move t x ▸ hf.now_le_move x
  by_cases hw : stage = .waiting
  · subst hw
    obtain ⟨hinert, hdue⟩ : Inert turns ∧ Situation r tree [] t.state .waiting task := by
      cases hsituation with
      | waiting hinert hdue => exact ⟨hinert, .waiting inert_nil hdue⟩
    obtain ⟨y, hy, hlater, hrooted, next, -, hnext⟩ :=
      (upheld_tells hstopping .waiting id).stir machinery_punctual (hf.timely id) x
        ⟨task, htask, hlater, hrooted, _, .inl rfl, hdue⟩
    refine ⟨y, hy, hlater, hrooted, next, List.append_nil turns ▸ hnext.prepend hinert, ?_⟩
    rcases hnext.stage_of_nil with rfl | rfl
    · exact hdated
    · trivial
  · obtain ⟨y, hy, hlater, hrooted, next, hsame, hnext⟩ :=
      (upheld_tells hstopping stage id).stir machinery_punctual (hf.timely id) x
        ⟨task, htask, hlater, hrooted, _, .inr rfl, hsituation⟩
    obtain rfl := hsame.resolve_left hw
    exact ⟨y, hy, hlater, hrooted, next, hnext, hdated.of_le hle⟩

/-- A run that has waited when a move began has ended at this moment if the log has been closed, and
has been stopped at this moment if that was its limit. -/
theorem dated_settle (hstopping : r.stopping = none) (hf : Faithful t ch)
    (hopen : (ch r.process).logEnd = none)
    (hdue : ∀ d, r.deadline = some d → (stir machinery t x).state.now ≤ d)
    (hrooted : r.Rooted tree (move machinery t x).state.fleet)
    (htask : (move machinery t x).tasks[id]? = some task)
    (h : Situation r tree (turnsOfSettle machinery id (stir machinery t x))
      (move machinery t x).state stage task) :
    Dated r.deadline
      ((ch r.process).observe r.process t.state.fleet (stir machinery t x).state.fleet
      (move machinery t x).state.fleet).logEnd (move machinery t x).state.now stage := by
  obtain ⟨-, hnew⟩ := logEnd_observe (ch r.process) r.process t.state.fleet
    (stir machinery t x).state.fleet (move machinery t x).state.fleet
  have hprocess : ((move machinery t x).state.fleet.process? r.process).isSome = true := by
    obtain ⟨p, hp, -⟩ := hrooted
    rw [hp]
    rfl
  have hexit := (hf.move x).exitCode? hprocess
  have hturn : ∀ turn ∈ turnsOfSettle machinery id (stir machinery t x),
      turn.1.now = (move machinery t x).state.now := fun turn hmem =>
    (now_of_mem_turnsOfSettle machinery_punctual hmem).trans (now_move t x).symm
  cases h with
  | waiting =>
    have hwaits : r.Waits (move machinery t x).state.fleet := waiting_settle _ id _ htask
    unfold Waits at hwaits
    rw [hstopping] at hwaits
    rcases hexit with ⟨-, hnone⟩ | ⟨code, cut, hx, -, -⟩
    · exact hnone
    · cases hx.symm.trans hwaits.1
  | finished _ hmem hconcluded =>
    obtain ⟨turn, hmem, rfl⟩ := hmem
    rw [hturn turn hmem]
    rcases hexit with ⟨hx, -⟩ | ⟨code, cut, -, hcut, -⟩
    · cases hconcluded.exitCode?.symm.trans hx
    · obtain rfl := hnew hopen cut hcut
      exact ⟨hcut, fun d hd => now_move t x ▸ hdue d hd⟩
  | stopped hturns _ _ hstopped =>
    obtain ⟨turn, hmem, rfl⟩ := hstopped.begun
    rw [hturn turn (hturns ▸ List.mem_append_right _ hmem)]
    exact ⟨Nat.le_refl _, fun cut hcut => Nat.le_of_eq (hnew hopen cut hcut).symm⟩
  | cancelled => trivial

theorem outcome_settle (hstart : start = { state := s.afresh w others })
    (hstopping : r.stopping = none) (hf : Faithful t ch)
    (htask : (stir machinery t x).tasks[id]? = some task)
    (h : Outcome r tree start (ch r.process).logEnd turns (stir machinery t x) task) :
    ∃ y, (move machinery t x).tasks[id]? = some y ∧
      Outcome r tree start ((ch r.process).observe r.process t.state.fleet
        (stir machinery t x).state.fleet (move machinery t x).state.fleet).logEnd
        (turns ++ turnsOfSettle machinery id (stir machinery t x)) (move machinery t x) y := by
  subst hstart
  obtain ⟨hlater, hrooted, stage, hsituation, hdated⟩ := h
  by_cases hw : stage = .waiting
  · subst hw
    obtain ⟨hinert, hdue⟩ : Inert turns ∧
        ∀ d, r.deadline = some d → (stir machinery t x).state.now ≤ d := by
      cases hsituation with
      | waiting hinert hdue => exact ⟨hinert, hdue⟩
    have hwaiting : Situation r tree [] (stir machinery t x).state .waiting task := by
      cases hsituation with
      | waiting => exact .waiting inert_nil hdue
    obtain ⟨y, hy, hlater, hrooted, next, -, hnext⟩ :=
      (upheld_tells hstopping .waiting id).settle machinery_punctual
        ⟨task, htask, hlater, hrooted, _, .inl rfl, hwaiting⟩
    rw [List.nil_append] at hnext
    exact ⟨y, hy, hlater, hrooted, next, hnext.prepend hinert,
      dated_settle hstopping hf hdated hdue hrooted hy hnext⟩
  · obtain ⟨y, hy, hlater, hrooted, next, hsame, hnext⟩ :=
      (upheld_tells hstopping stage id).settle machinery_punctual
        ⟨task, htask, hlater, hrooted, _, .inr rfl, hsituation⟩
    obtain rfl := hsame.resolve_left hw
    obtain ⟨hkept, hnew⟩ := logEnd_observe (ch r.process) r.process t.state.fleet
      (stir machinery t x).state.fleet (move machinery t x).state.fleet
    have hnow : (move machinery t x).state.fleet.now = (stir machinery t x).state.now :=
      now_move t x
    refine ⟨y, hy, hlater, hrooted, next, hnext, ?_⟩
    rw [now_move]
    exact hdated.observe hw hkept fun hnone cut hcut => (hnew hnone cut hcut).trans hnow

theorem outcome_play (hstart : start = { state := s.afresh w others })
    (hstopping : r.stopping = none) (hf : Faithful t ch) (htask : t.tasks[id]? = some task)
    (h : Outcome r tree start (ch r.process).logEnd turns t task) (moves : List (Move Command)) :
    ∃ y, (play machinery t moves).tasks[id]? = some y ∧
      Outcome r tree start (chronicle r.process t (ch r.process) moves).logEnd
        (turns ++ turnsOfPlay machinery id t moves) (play machinery t moves) y := by
  induction moves generalizing t ch turns task with
  | nil =>
    rw [turnsOfPlay, List.append_nil]
    exact ⟨task, htask, h⟩
  | cons x moves ih =>
    obtain ⟨y, hy, hbegun⟩ := outcome_stir hstart hstopping hf htask h x
    obtain ⟨z, hz, hmoved⟩ := outcome_settle hstart hstopping hf hy hbegun
    rw [turnsOfPlay, ← List.append_assoc]
    exact ih (hf.move x) hz hmoved

end

end

end BoundedRun

namespace Session

open BoundedRun Timeline

variable {before : Timeline Session Activity Result} {step : Step Command} {request : Request}
  {limit : Option Seconds} {check track : Bool} {g : Fleet} {id : ProcessId} {p : Supervised}

def running (s : Session) (request : Request) (limit : Option Seconds) (check track : Bool)
    (id : ProcessId) : BoundedRun :=
  let limit := limit.getD s.settings.runTimeout
  { process := id, command := request.command, limit, deadline := limit.deadline s.now, check
    tracked := track }

theorem waiting_play (t : Timeline Session Activity Result) (x : Move Command)
    (moves : List (Move Command)) (task : TaskId) :
    Waiting (play machinery t (x :: moves)) task := by
  induction moves generalizing t x with
  | nil => exact waiting_settle _ task
  | cons y moves ih => exact ih (move machinery t x) y

theorem start_run {peers : List Activity} {s : Session}
    (hspawn : s.fleet.startTracked s.settings (s.holds peers) request track = (g, .ok id))
    (hnow : g.now = s.now) :
    machinery.start peers (.run request limit check track) s =
      { s with fleet := g }.goOnRun ((s.running request limit check track id).poll g) := by
  change s.goOnRun (BoundedRun.start s.settings (s.holds peers) request limit check track s.fleet) =
    _
  unfold BoundedRun.start
  rw [hspawn]
  dsimp only
  rw [hnow]
  rfl

theorem outcome_launch {s : Session} {w : System} {others : List Birth}
    {ch : ProcessId → Chronicle} (hlater : Later machinery { state := s.afresh w others } before)
    (hf : Faithful before ch) (hstep : step.command? = some (.run request limit check track))
    (hspawn : before.state.fleet.startTracked before.state.settings
      (before.state.holds before.activities) request track = (g, .ok id))
    (hp : g.process? id = some p) (hfresh : p.Fresh) :
    let r := before.state.running request limit check track id
    ∃ task, (launch machinery before step).tasks[before.tasks.size]? = some task ∧
      r.Outcome (Stopping.terminationOf p) { state := s.afresh w others } (ch id).logEnd
        [({ before.state with fleet := g }, (launch machinery before step).state)]
        (launch machinery before step) task := by
  intro r
  have hcalls : Fleet.Calls True before.state.fleet g := by
    have hall := Fleet.calls_startTracked trivial .refl before.state.settings
      (before.state.holds before.activities) request track (f := before.state.fleet)
    rwa [hspawn] at hall
  have hnow : g.now = before.state.now := hcalls.carries.now
  -- the process is new, so nothing is in its chronicle
  have hunborn : ch id = {} := by
    refine hf.unborn id ?_
    rw [Fleet.view?, (Fleet.spawned_startTracked hspawn).1.process]
    rfl
  let a : Session := { before.state with fleet := g }
  have hle : ∀ d, r.deadline = some d → a.now ≤ d := fun d hd =>
    Nat.le_trans (Nat.le_of_eq hnow) (Seconds.le_deadline hd)
  obtain ⟨stage, hsituation⟩ := situation_poll (a := a) (r := r) rfl
    ((sane_later hlater).calls hcalls) hp hle
  have hpolled : Fleet.Calls False g (r.poll g).1 := BoundedRun.calls_poll .refl r
  obtain ⟨q, hq, hsame⟩ := hpolled.process hp
  have hunreported : (r.poll g).1.exitCode? id = none := by
    rw [Fleet.exitCode?, hq, Option.bind_some]
    exact Supervised.exitCode?_eq_none fun code => by
      simp [Supervised.phase_same hsame, hfresh.phase]
  obtain ⟨hstate, htask, -⟩ := launch_command (m := machinery) hstep before
  rw [start_run hspawn hnow] at hstate htask
  refine ⟨_, htask, hlater.trans (.launch step .refl), ?_, stage, ?_, ?_⟩
  · rw [hstate]
    exact ⟨q, hq, Supervised.enduring_termination.same hsame⟩
  · rw [hstate]
    exact hsituation
  · rw [hstate, hunborn]
    exact dated_first hsituation hunreported hpolled.carries.now

/-- A bounded run has no other outcomes than these. If the log of its process is closed before the
limit runs out, the run ends at that very moment with the complete output, or with a failure where a
code other than zero is checked, and has signalled nobody. Otherwise the process is stopped at the
moment at which the limit runs out, which is at once if it is not positive. If that succeeds, the
run fails with its limit and the complete output when the end of the process has been reported, and
has taken the process off the registry; if that fails, so does the run, and leaves the registry
alone. Whoever still waits has nothing else to do. -/
theorem run_outcomes (s : Session) (w : System) (others : List Birth)
    (first : List (Move Command)) {step : Step Command} {request : Request}
    {limit : Option Seconds} {check track : Bool} {g : Fleet} {id : ProcessId} :
    let start : Timeline Session Activity Result := { state := s.afresh w others }
    let before := play machinery start first
    let run := before.state.running request limit check track id
    step.command? = some (.run request limit check track) →
    before.state.fleet.startTracked before.state.settings (before.state.holds before.activities)
      request track = (g, .ok id) →
    (run.limit.Spent → run.deadline = some before.state.now) ∧
    g.scene.system.signals = before.state.system.signals ∧ (track = true → g.Tracks id) ∧
    ∃ p, g.process? id = some p ∧ ∀ moves,
      let after := play machinery before (.begin step :: moves)
      let logEnd := (chronicle id start {} (first ++ .begin step :: moves)).logEnd
      let turns := ({ before.state with fleet := g }, (launch machinery before step).state) ::
        (turnsOfStep machinery before step moves).tail
      ∃ task stage, after.tasks[before.tasks.size]? = some task ∧
        run.Situation (Stopping.terminationOf p) turns after.state stage task ∧
        Dated run.deadline logEnd after.state.now stage ∧ Waiting after before.tasks.size := by
  intro start before run hstep hspawn
  obtain ⟨hspawned, htracks⟩ := Fleet.spawned_startTracked hspawn
  obtain ⟨p, hp, hfresh⟩ := hspawned.fresh
  refine ⟨fun hspent => hspent.deadline before.state.now, hspawned.signals, htracks, p, hp,
    fun moves => ?_⟩
  intro after logEnd turns
  have hlater : Later machinery start before := Later.refl.play first
  have hf : Faithful before fun id => chronicle id start {} first :=
    (faithful_afresh s w others).play first
  obtain ⟨begun, hbegun, hlaunched⟩ := outcome_launch hlater hf hstep hspawn hp hfresh
  obtain ⟨settled, hsettled, hmoved⟩ :=
    outcome_settle (x := .begin step) rfl rfl hf hbegun hlaunched
  obtain ⟨task, htask, -, -, stage, hsituation, hdated⟩ :=
    outcome_play rfl rfl (hf.move (.begin step)) hsettled hmoved moves
  refine ⟨task, stage, htask, ?_, ?_, waiting_play before (.begin step) moves _⟩
  · rw [List.append_assoc] at hsituation
    exact hsituation
  · have hchronicle : logEnd = _ := congrArg Chronicle.logEnd
      (chronicle_append id start {} first (.begin step :: moves))
    rw [hchronicle]
    exact hdated

/-- The moment at which a run has failed because it took too long, and the output. -/
def timedOut? : Task Activity Result → Option (Instant × String)
  | .ended time (.result (.error (.timeout _ output _ _))) => some (time, output)
  | _ => none

/-- The process prints something while it is dying; it has been tracked until the run fails. -/
theorem run_outcomes_while_dying :
    let program : Program :=
      { shell := { pid := 100, ppid := 1, pgid := 100, onTerm := some 10 }
        events := [(3, .output [97, 10]), (2000000005, .output [98])] }
    let start : Timeline Session Activity Result :=
      { state := ({} : Session).afresh { programs := [.program program] } [] }
    let request : Request := { command := "wrangler build" }
    let step : Step Command := .act (.run request (some (.ofDecimal 2 0)) false true)
    let before := play machinery start []
    let moves := List.replicate 5 Move.tick
    let after := play machinery before (.begin step :: moves)
    let spawned := before.state.fleet.startTracked before.state.settings
      (before.state.holds before.activities) request true
    spawned.2 = .ok 0 ∧ spawned.1.Tracks 0 ∧
      ∃ (last : Session) (code : Int), last.now = 2050000000 ∧ last.Concluded 0 code "a\nb" ∧
        ¬ last.fleet.Tracks 0 ∧ after.state.Concluded 0 code "a\nb" := by
  intro program start request step before moves after spawned
  have hstep : step.command? = some (.run request (some (.ofDecimal 2 0)) false true) := rfl
  have hid : spawned.2 = .ok 0 := by decide +kernel
  have hspawn : before.state.fleet.startTracked before.state.settings
      (before.state.holds before.activities) request true = (spawned.1, .ok 0) := Prod.ext rfl hid
  have hfailed : after.tasks[before.tasks.size]?.bind timedOut? = some (2050000000, "a\nb") := by
    decide +kernel
  have hbouts : (bouts (({ before.state with fleet := spawned.1 },
      (launch machinery before step).state) ::
        (turnsOfStep machinery before step moves).tail)).length = 1 := by
    decide +kernel
  subst after spawned before step request start program
  obtain ⟨-, -, htracks, p, -, hafter⟩ := run_outcomes _ _ _ _ hstep hspawn
  obtain ⟨task, stage, htask, hsituation, -, -⟩ := hafter moves
  rw [htask] at hfailed
  refine ⟨hid, htracks rfl, ?_⟩
  cases hsituation with
  | waiting => cases hfailed
  | cancelled => cases hfailed
  | finished hinert =>
    rw [hinert.bouts] at hbouts
    cases hbouts
  | stopped hturns hearly hd hstopped =>
    cases hstopped with
    | unknown htime hm hlate =>
      rw [hturns, bouts_append, hearly.bouts, hlate.bouts] at hbouts
      cases hbouts
    | sought htime hm ht hages hlate =>
      cases hlate with
      | ending => cases hfailed
      | reporting => cases hfailed
      | cancelled => cases hfailed
      | failed hkeeps hcourse =>
        cases hcourse with
        | left => cases hfailed
      | timedOut hlast hkeeps htime hconcluded htracked hcleared hafter =>
        obtain ⟨rfl, rfl⟩ := Prod.mk.inj (Option.some.inj hfailed)
        exact ⟨_, _, htime, hconcluded, htracked rfl, hafter⟩

end Session

end Overseer
