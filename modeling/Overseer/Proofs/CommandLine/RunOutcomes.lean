import Overseer.Proofs.CommandLine.Stopping
import Overseer.Proofs.Supervision.Hearing

/-!
# What comes of a run of the command line

A run waits until the end of its command is reported or a line matches, and no longer than its
limit. When it has nothing more to wait for it stops its command, unless that has ended by itself,
and only then it ends. It has no more than the outcomes of `Run.Situation`: what the moment of the
decision calls for (`Aim.verdict?`) and what comes of stopping the command make up the rest. -/

namespace Overseer

open Number Pattern World Timeline

theorem Pattern.Compiled.names_of_search {p : Compiled} {line : String} {found : Match}
    (h : p.search line = some found) : found.names = p.names := by
  obtain ⟨start, -, hat⟩ := List.exists_of_findSome?_eq_some h
  obtain ⟨c, -, rfl⟩ := Option.map_eq_some_iff.mp hat
  rfl

namespace Fleet

variable {a f : Fleet} {process : ProcessId} {p : Supervised}

/-- A process that has just been started has printed nothing, and nobody waits for a line of it. -/
theorem log_start {settings : Settings} {request : Request}
    (h : a.start settings request = (f, .ok process)) : f.log process = {} := by
  unfold start at h
  dsimp only at h
  split at h
  · cases h
  next launch hlaunch =>
    unfold Supervised.spawn at h
    split at h
    · cases h
    next scene p hs =>
      obtain ⟨rfl, hid⟩ := Prod.mk.inj h
      obtain rfl := Except.ok.inj hid
      split at hs
      · split at hs
        · cases hs
        · obtain ⟨-, hp⟩ := Prod.mk.inj hs
          obtain rfl := Except.ok.inj hp
          simp [log, process?]
      · cases hs

structure Agrees (process : ProcessId) (a f : Fleet) : Prop where
  system : f.scene.system = a.scene.system
  process : ∃ p q, a.process? process = some p ∧ f.process? process = some q ∧ p.Same q

theorem Agrees.refl (hp : f.process? process = some p) : f.Agrees process f :=
  ⟨rfl, p, p, hp, hp, .refl p⟩

theorem Agrees.report (h : a.Agrees process f) (notes : List Note) :
    a.Agrees process (f.report notes) := ⟨h.system, h.process⟩

theorem Agrees.decision (h : a.Agrees process f) (w : LineWait) :
    w.decision a.now 0 (a.log process) = w.decision f.now 0 (f.log process) := by
  obtain ⟨p, q, hp, hq, log, rfl, hl, hc⟩ := h.process
  rw [log_eq hp, log_eq hq, show a.now = f.now from congrArg System.now h.system.symm]
  exact LineWait.decision_congr hl.symm hc.symm

end Fleet

namespace CommandLine

def Arguments.request (a : Arguments) : Request :=
  { command := a.command, cwd := a.cwd, debug := a.debug }

inductive Aim where
  | toEnd (limit : Seconds)
  | forLine (pattern : Compiled) (limit : Seconds)
  | broken (failure : Failure)

def Arguments.aim (settings : Settings) (a : Arguments) : Aim :=
  match a.awaited with
  | none => .toEnd (a.timeout.getD settings.runTimeout)
  | some text =>
    match PatternText.compile { text } with
    | .ok pattern => .forLine pattern (a.timeout.getD settings.readTimeout)
    | .error failure => .broken failure

def Aim.deadline (now : Instant) : Aim → Option Instant
  | .toEnd limit => limit.deadline now
  | .forLine _ limit => limit.deadline now
  | .broken _ => none

/-- What a moment calls for: the command is stopped when it has taken too long; or when a line has
come that matches, or cannot come any more. -/
def Aim.verdict? (deadline : Option Instant) (process : ProcessId) (f : Fleet) : Aim →
    Option Verdict
  | .toEnd limit =>
    if f.isRunning process && Instant.reached f.now deadline then some (.tooLong limit) else none
  | .forLine pattern _ =>
    match (f.log process).lines.toList.findSome? pattern.search with
    | some found =>
      some (.matched (pattern.names.map fun (name, index) => (name, found.group? index)))
    | none =>
      if (f.log process).closed || Instant.reached f.now deadline then some .missed else none
  | .broken failure => some (.broken failure)

/-- What a run prints when its command has been stopped, given the complete output. -/
def Verdict.printed (output : String) : Verdict → String
  | .tooLong _ => output ++ "\n"
  | .missed => ""
  | .matched groups => String.join (groups.map groupLine)
  | .broken _ => ""

def Verdict.code : Verdict → Except Failure Int
  | .tooLong _ => .ok 1
  | .missed => .ok 1
  | .matched _ => .ok 0
  | .broken failure => .error failure

/-- The exit code of a program: a failure of the library has a code of its own. -/
def status : Except Failure Int → Except Failure Int
  | .ok code => .ok code
  | .error failure => if failure.isOwn then .ok 2 else .error failure

/-- The task of a run that stops its command, by how far that has come. If it fails the run fails
and prints nothing, whatever it was to come to. -/
inductive Concludes (verdict : Verdict) (process : ProcessId) (f : Fleet) :
    Progress Stopping Stopping.Result → Task Run Ended → Prop where
  | stopping {command : String} {s : Stopping} :
      Concludes verdict process f (.pending s)
        (.pending (.act { process, command, stage := .stopping s verdict }))
  | failed {failure : Failure} {time : Instant} {journal : Journal} :
      Concludes verdict process f (.done (.error failure))
        (.ended time (.result { printed := "", code := .error failure, journal }))
  | stopped {code : Int} {output : String} {time : Instant} {journal : Journal} :
      f.Reported process code output →
      Concludes verdict process f (.done (.ok ()))
        (.ended time
          (.result { printed := verdict.printed output, code := verdict.code, journal }))

namespace Run

inductive Awaits (deadline : Option Instant) (process : ProcessId) (f : Fleet) : Aim →
    Stage → Prop where
  | toEnd {limit : Seconds} : Awaits deadline process f (.toEnd limit) (.toEnd limit deadline)
  | forLine {pattern : Compiled} {limit : Seconds} {w : LineWait} {heard : Nat} :
      w.pattern = pattern → w.deadline = deadline →
      (f.log process).Heard pattern w.queue heard →
      Awaits deadline process f (.forLine pattern limit) (.forLine w)

/-- What has come of a run since its command has been started. Until it stops its command it signals
nobody, and that begins no later than its limit runs out. -/
inductive Situation (aim : Aim) (deadline : Option Instant) (process : ProcessId)
    (signals : Array (Instant × Attempt)) (turns : List (Fleet × Fleet)) (f : Fleet) :
    Task Run Ended → Prop where
  | waiting {command : String} {stage : Stage} : f.scene.system.signals = signals →
      (∀ d, deadline = some d → f.now ≤ d) → Awaits deadline process f aim stage →
      Situation aim deadline process signals turns f (.pending (.act { process, command, stage }))
  | finished {limit : Seconds} {time : Instant} {code : Int} {output : String} {journal : Journal} :
      aim = .toEnd limit → f.scene.system.signals = signals → (∀ d, deadline = some d → time ≤ d) →
      f.Reported process code output →
      Situation aim deadline process signals turns f
        (.ended time (.result { printed := output ++ "\n", code := .ok code, journal }))
  | stopped {early late : List (Fleet × Fleet)} {turn : Fleet × Fleet} {verdict : Verdict}
      {progress : Progress Stopping Stopping.Result} {task : Task Run Ended} :
      turns = early ++ turn :: late → turn.1.scene.system.signals = signals →
      (∀ d, deadline = some d → turn.1.now ≤ d) →
      aim.verdict? deadline process turn.1 = some verdict →
      Closing process (turn :: late) progress → Concludes verdict process f progress task →
      Situation aim deadline process signals turns f task

def Waits (f : Fleet) (r : Run) : Prop :=
  match r.stage with
  | .toEnd _ deadline => f.isRunning r.process = true ∧ Instant.reached f.now deadline = false
  | .forLine w => w.decision f.now 0 (f.log r.process) = none
  | .stopping s _ => s.Waits f

variable {aim : Aim} {deadline : Option Instant} {process : ProcessId}
  {signals : Array (Instant × Attempt)} {turns more : List (Fleet × Fleet)} {a f g : Fleet}
  {stage : Stage} {task : Task Run Ended}
  {command : String} {verdict : Verdict} {p q : Supervised}

theorem system_conclude (r : Run) (f : Fleet) (verdict : Verdict) :
    (r.conclude f verdict).1.scene.system = f.scene.system := by
  cases verdict <;> rfl

theorem system_afterStopping (r : Run) (verdict : Verdict)
    (x : Fleet × Progress Stopping Stopping.Result) :
    (r.afterStopping verdict x).1.scene.system = x.1.scene.system := by
  obtain ⟨f, stopping | ⟨failure | ⟨⟩⟩⟩ := x
  · rfl
  · rfl
  · exact system_conclude r f verdict

theorem ended_conclude (r : Run) (f : Fleet) (verdict : Verdict) :
    (r.conclude f verdict).2 =
      { printed := verdict.printed (f.output r.process), code := verdict.code
        journal := (r.conclude f verdict).1.scene.journal } := by
  cases verdict <;> rfl

theorem concludes_afterStopping (r : Run) (verdict : Verdict)
    {x : Fleet × Progress Stopping Stopping.Result} (hx : x.1.Each Supervised.Consistent)
    (hend : x.2 = .done (.ok ()) → ∃ code, x.1.exitCode? r.process = some code) :
    let going := r.afterStopping verdict x
    Concludes verdict r.process going.1 x.2 (.ofProgress going.1.now going.2) := by
  obtain ⟨f, stopping | ⟨failure | ⟨⟩⟩⟩ := x
  · exact .stopping
  · exact .failed
  · obtain ⟨code, hcode⟩ := hend rfl
    have hreported := Fleet.reported_of_exitCode? hx hcode
    have hended := ended_conclude r f verdict
    have hkept : (r.conclude f verdict).1.Reported r.process code (f.output r.process) := by
      cases verdict <;> exact hreported
    change Concludes verdict r.process (r.conclude f verdict).1 _
      (.ended _ (.result (r.conclude f verdict).2))
    rw [hended]
    exact .stopped hkept

/-- A run that decides at some moment stops its command then, whatever it has reported before. -/
theorem situation_stop (r : Run) (hf : f.Each Supervised.Consistent) (h : a.Agrees r.process f)
    (hle : ∀ d, deadline = some d → a.now ≤ d)
    (hverdict : aim.verdict? deadline r.process a = some verdict) :
    let going := r.stop verdict f
    Situation aim deadline r.process a.scene.system.signals [(a, going.1)] going.1
      (.ofProgress going.1.now going.2) := by
  intro going
  obtain ⟨p, q, hp, hq, hsame⟩ := h.process
  obtain ⟨hs, hprogress⟩ := Stopping.start_congr h.system.symm hp hq hsame
  have hstarted : (Stopping.start r.process f).1.Each Supervised.Consistent :=
    (Fleet.Onward.refl.calls (Stopping.calls_start (k := False) .refl r.process)).consistent hf
  have hconcludes := concludes_afterStopping r verdict hstarted fun h =>
    Stopping.ended_start (by simp [hq]) h
  refine .stopped (List.nil_append _).symm rfl hle hverdict (.start ?_) ?_
  · exact (system_afterStopping r verdict _).trans hs.symm
  · rw [hprogress]
    exact hconcludes

theorem isRunning_of_exitCode? (hp : f.process? process = some p)
    (hx : f.exitCode? process = none) : f.isRunning process = true := by
  rw [Fleet.exitCode?, hp, Option.bind_some] at hx
  simp [Fleet.isRunning, hp, Supervised.isRunning, hx]

theorem situation_pollEnd (hf : f.Each Supervised.Consistent) (hp : f.process? process = some p)
    (hle : ∀ d, deadline = some d → f.now ≤ d) (limit : Seconds) :
    let r : Run := { process, command, stage := .toEnd limit deadline }
    let going := r.pollEnd limit deadline f
    Situation (.toEnd limit) deadline process f.scene.system.signals [(f, going.1)] going.1
      (.ofProgress going.1.now going.2) := by
  intro r
  unfold pollEnd
  cases hx : f.exitCode? r.process with
  | some code => exact .finished rfl rfl hle (Fleet.reported_of_exitCode? hf hx)
  | none =>
    have hrunning : f.isRunning process = true := isRunning_of_exitCode? hp hx
    dsimp only
    by_cases hr : Instant.reached f.now deadline = true
    · rw [if_pos hr]
      refine situation_stop r hf (.refl hp) hle ?_
      exact if_pos (by rw [hrunning, hr]; rfl)
    · rw [if_neg hr]
      exact .waiting rfl hle .toEnd

/-- What a run that waits for a line is to come to is what the wait has decided. -/
theorem verdict?_forLine {pattern : Compiled} {limit : Seconds} {w : LineWait}
    (hw : w.pattern = pattern) (hd : w.deadline = deadline) :
    (Aim.forLine pattern limit).verdict? deadline process f =
      (w.decision f.now 0 (f.log process)).map fun
        | .ok found => .matched found.namedGroups
        | .error _ => .missed := by
  subst hw hd
  rw [Aim.verdict?, LineWait.decision, List.drop_zero]
  cases hfound : (f.log process).lines.toList.findSome? w.pattern.search with
  | some found =>
    obtain ⟨line, -, hsearch⟩ := List.exists_of_findSome?_eq_some hfound
    rw [← Compiled.names_of_search hsearch]
    rfl
  | none => cases (f.log process).closed <;> cases Instant.reached f.now w.deadline <;> rfl

theorem situation_pollLine {pattern : Compiled} {w : LineWait} {heard : Nat}
    (hf : f.Each Supervised.Consistent) (h : a.Agrees process f)
    (hle : ∀ d, deadline = some d → a.now ≤ d) (hw : w.pattern = pattern)
    (hd : w.deadline = deadline) (hheard : (f.log process).Heard pattern w.queue heard)
    (limit : Seconds) :
    let r : Run := { process, command, stage := .forLine w }
    let going := r.pollLine w f
    Situation (.forLine pattern limit) deadline process a.scene.system.signals
      [(a, going.1)] going.1
      (.ofProgress going.1.now going.2) := by
  intro r
  obtain ⟨p, q, hp, hq, hsame⟩ := h.process
  have hlines := LineWait.lines_poll w f.now (f.log process)
  have hclosed := LineWait.closed_poll w f.now (f.log process)
  have hverdict : (Aim.forLine pattern limit).verdict? deadline process a = _ :=
    verdict?_forLine hw hd
  rw [h.decision w] at hverdict
  have hgoes := hheard.poll hw f.now
  unfold pollLine
  rcases hpoll : w.poll f.now (f.log r.process) with ⟨log, notes, progress⟩
  rw [show w.poll f.now (f.log process) = (log, notes, progress) from hpoll] at hlines hclosed hgoes
  obtain ⟨x, hx, hset⟩ := Fleet.same_setLog hlines hclosed hq
  have hagrees : a.Agrees process (f.setLog process log) :=
    ⟨h.system, p, x, hp, hx, hsame.trans hset⟩
  have hconsistent : (f.setLog process log).Each Supervised.Consistent :=
    (Fleet.Onward.refl.calls (k := False) (.setLog .refl hlines hclosed)).consistent hf
  rcases hgoes with ⟨-, rfl, hkept⟩ | ⟨result, hdecision, rfl⟩
  · have hnext : ((f.setLog process log).log process).Heard pattern w.queue
        (f.log process).lines.size := (Fleet.log_setLog hq log).symm ▸ hkept
    refine .waiting (congrArg System.signals h.system) (fun d hd => ?_) (.forLine hw hd hnext)
    exact Nat.le_trans (Nat.le_of_eq (congrArg System.now h.system)) (hle d hd)
  · rw [hdecision] at hverdict
    cases result with
    | ok found => exact situation_stop r hconsistent (hagrees.report notes) hle hverdict
    | error failure =>
      exact situation_stop r hconsistent ((hagrees.report notes).report _) hle hverdict

theorem situation_poll (hf : f.Each Supervised.Consistent) (hp : f.process? process = some p)
    (hle : ∀ d, deadline = some d → f.now ≤ d) (h : Awaits deadline process f aim stage) :
    let r : Run := { process, command, stage }
    let going := r.poll f
    Situation aim deadline process f.scene.system.signals [(f, going.1)] going.1
      (.ofProgress going.1.now going.2) := by
  cases h with
  | toEnd => exact situation_pollEnd hf hp hle _
  | forLine hw hd hheard => exact situation_pollLine hf (.refl hp) hle hw hd hheard _

theorem Situation.prepend (h : Situation aim deadline process signals more f task) :
    Situation aim deadline process signals (turns ++ more) f task := by
  cases h with
  | waiting hsignals hle hawaits => exact .waiting hsignals hle hawaits
  | finished haim hsignals hle hreported => exact .finished haim hsignals hle hreported
  | stopped hturns hsignals hle hverdict hclosing hconcludes =>
    subst hturns
    exact .stopped (List.append_assoc turns _ _).symm hsignals hle hverdict hclosing hconcludes

/-- Whatever else goes on leaves a run as it is, as long as nobody is signalled and the limit does
not run out. -/
theorem Situation.onward (h : Situation aim deadline process signals turns f task)
    (hf : f.Each Supervised.Consistent) (hg : f.Onward g)
    (hsignals : g.scene.system.signals = f.scene.system.signals)
    (hlog : ∀ q, OutputLog.Use (· ≠ q) (f.log process) (g.log process))
    (hnow : g.now = f.now ∨ ∀ next, task.wake wake = some next → g.now ≤ next) :
    Situation aim deadline process signals turns g task := by
  cases h with
  | @waiting command stage hs hd hawaits =>
    have hle : ∀ d, deadline = some d → g.now ≤ d := by
      intro d hdeadline
      rcases hnow with hnow | hwake
      · exact hnow ▸ hd d hdeadline
      · refine hwake d ?_
        cases hawaits with
        | toEnd => exact hdeadline
        | forLine _ hw _ => exact hw.trans hdeadline
    refine .waiting (hsignals.trans hs) hle ?_
    cases hawaits with
    | toEnd => exact .toEnd
    | forLine hw hd hheard => exact .forLine hw hd (hheard.use (hlog _))
  | finished haim hs hd hreported =>
    exact .finished haim (hsignals.trans hs) hd (hreported.onward hf hg)
  | stopped hturns hs hd hverdict hclosing hconcludes =>
    refine .stopped hturns hs hd hverdict hclosing ?_
    cases hconcludes with
    | stopping => exact .stopping
    | failed => exact .failed
    | stopped hreported => exact .stopped (hreported.onward hf hg)

theorem Situation.poll {errand : Errand Run}
    (h : Situation aim deadline process signals turns f (.pending errand))
    (hf : f.Each Supervised.Consistent) (hp : f.process? process = some p) :
    ∃ r, errand = .act r ∧
      let going := r.poll f
      Situation aim deadline process signals (turns ++ [(f, going.1)]) going.1
        (.ofProgress going.1.now going.2) := by
  cases h with
  | waiting hs hle hawaits =>
    refine ⟨_, rfl, ?_⟩
    exact hs ▸ (situation_poll hf hp hle hawaits).prepend
  | @stopped early late turn verdict _ _ hturns hs hle hverdict hclosing hconcludes =>
    cases hconcludes with
    | @stopping command s =>
      refine ⟨_, rfl, ?_⟩
      obtain rfl := hclosing.process_eq
      let r : Run := { process := s.process, command, stage := .stopping s verdict }
      have hnext : (s.poll f).1.Each Supervised.Consistent :=
        (Fleet.Onward.refl.calls (Stopping.calls_poll (k := False) .refl s)).consistent hf
      have hdone := concludes_afterStopping r verdict hnext fun h =>
        Stopping.ended_poll (by simp [hp]) h
      subst hturns
      refine .stopped (List.append_assoc early _ _) hs hle hverdict ?_ hdone
      exact .poll hclosing (system_afterStopping r verdict _)

variable {settings : Settings} {t u : Timeline Fleet Run Ended}

structure Tells (aim : Aim) (deadline : Option Instant) (process : ProcessId)
    (signals : Array (Instant × Attempt)) (turns : List (Fleet × Fleet))
    (t : Timeline Fleet Run Ended) (task : Task Run Ended) : Prop where
  consistent : t.state.Each Supervised.Consistent
  started : ∃ p, t.state.process? process = some p
  alone : t.tasks.size = 1
  situation : Situation aim deadline process signals turns t.state task

theorem Tells.onward (h : Tells aim deadline process signals turns t task)
    (hg : t.state.Onward g) (hsignals : g.scene.system.signals = t.state.scene.system.signals)
    (hlog : ∀ q, OutputLog.Use (· ≠ q) (t.state.log process) (g.log process))
    (hnow : g.now = t.state.now ∨ ∀ next, task.wake wake = some next → g.now ≤ next) :
    Tells aim deadline process signals turns { t with state := g } task where
  consistent := hg.consistent h.consistent
  started := by
    obtain ⟨p, hp⟩ := h.started
    obtain ⟨q, hq, -⟩ := hg.process Supervised.enduring_exited hp
    exact ⟨q, hq⟩
  alone := h.alone
  situation := h.situation.onward h.consistent hg hsignals hlog hnow

theorem kept_tells : Kept (machinery settings) 0 (Tells aim deadline process signals) where
  deliver {_ t _} h := by
    obtain ⟨p, hp⟩ := h.started
    exact h.onward (.readOutputs .refl) (Fleet.signals_readOutputs _)
      (fun _ => Fleet.use_readOutputs _ (by simp [hp])) (.inl (Fleet.frame_readOutputs t.state).now)
  complete {_ t _} h := by
    obtain ⟨p, hp⟩ := h.started
    exact h.onward (.watchEnds .refl) (congrArg System.signals (Fleet.system_watchEnds _))
      (fun _ => Fleet.use_watchEnds _ (by simp [hp])) (.inl (Fleet.frame_watchEnds t.state).now)
  other {_ t _ other} hne h := by
    rw [pollTask_of_not_pending]
    · exact h
    · intro errand hp
      have hlt := (Array.getElem?_eq_some_iff.mp hp).1
      rw [h.alone] at hlt
      exact hne (Nat.lt_one_iff.mp hlt)
  poll {turns t errand} htask h := by
    obtain ⟨p, hp⟩ := h.started
    obtain ⟨r, rfl, hsituation⟩ := h.situation.poll h.consistent hp
    have hstate := (pollTask_pending (m := machinery settings) htask).1
    have hcalls : Fleet.Calls False t.state (r.poll t.state).1 := calls_poll .refl r
    refine ⟨?_, ?_, (size_pollTask t 0).trans h.alone, ?_⟩ <;> rw [hstate]
    · exact (Fleet.Onward.refl.calls hcalls).consistent h.consistent
    · obtain ⟨q, hq, -⟩ := hcalls.process hp
      exact ⟨q, hq⟩
    · exact hsituation

theorem Tells.tick {moment : Instant} (htask : t.tasks[0]? = some task)
    (hnext : nextMoment (machinery settings) t = some moment)
    (h : Tells aim deadline process signals turns t task) :
    Tells aim deadline process signals turns
      { t with state := (machinery settings).advance t.state moment } task := by
  refine h.onward (.advance moment .refl) (System.signals_advance _ _) (fun _ => .refl)
    (.inr fun next hwake => ?_)
  exact nextMoment_le_wake (m := machinery settings) hnext htask hwake

theorem heard_subscribe (pattern : Compiled) :
    (({} : OutputLog).subscribe.1).Heard pattern ({} : OutputLog).subscribe.2 0 where
  backlog := .of_subscribe nofun
  missed _ hl := absurd hl List.not_mem_nil

theorem situation_startStage {arguments : Arguments} (hg : g.Each Supervised.Consistent)
    (hp : g.process? process = some p) (hlog : g.log process = {}) :
    let aim := arguments.aim settings
    let going := startStage settings arguments process g
    Situation aim (aim.deadline g.now) process g.scene.system.signals [(g, going.1)] going.1
      (.ofProgress going.1.now going.2) := by
  unfold Arguments.aim startStage
  cases arguments.awaited with
  | none =>
    exact situation_pollEnd hg hp (fun d hd => Seconds.le_deadline hd) _
  | some text =>
    dsimp only
    cases PatternText.compile { text } with
    | error failure =>
      have hverdict : (Aim.broken failure).verdict? none process g = some (.broken failure) := rfl
      exact situation_stop { process, command := _, stage := _ } hg (.refl hp) nofun hverdict
    | ok pattern =>
      obtain ⟨q, hq, hsame⟩ := Fleet.same_setLog (OutputLog.lines_subscribe (g.log process))
        (OutputLog.closed_subscribe _) hp
      have hset : (g.setLog process (g.log process).subscribe.1).Each Supervised.Consistent :=
        (Fleet.Onward.refl.calls (k := False) (.setLog .refl (OutputLog.lines_subscribe _)
          (OutputLog.closed_subscribe _))).consistent hg
      have hagrees : g.Agrees process (g.setLog process (g.log process).subscribe.1) :=
        ⟨rfl, p, q, hp, hq, hsame⟩
      have hheard : ((g.setLog process (g.log process).subscribe.1).log process).Heard pattern
          (g.log process).subscribe.2 0 := by
        rw [Fleet.log_setLog hp, hlog]
        exact heard_subscribe pattern
      let w := (LineWait.start pattern (arguments.timeout.getD settings.readTimeout) g.now
        (g.log process)).2
      exact situation_pollLine (w := w) hset hagrees (fun d hd => Seconds.le_deadline hd) rfl rfl
        hheard _

theorem waits_afterStopping (r : Run) (verdict : Verdict)
    {x : Fleet × Progress Stopping Stopping.Result} (h : x.2.Leaves (Stopping.Waits x.1)) :
    (r.afterStopping verdict x).2.Leaves (Waits (r.afterStopping verdict x).1) := by
  obtain ⟨f, stopping | ⟨failure | ⟨⟩⟩⟩ := x
  · cases h with
    | pending h => exact .pending h
  · exact .done
  · exact .done

theorem waits_stop (r : Run) (verdict : Verdict) (f : Fleet) :
    (r.stop verdict f).2.Leaves (Waits (r.stop verdict f).1) :=
  waits_afterStopping r verdict (Stopping.waits_start r.process f)

theorem Awaits.waits_poll (h : Awaits deadline process f aim stage)
    (hp : f.process? process = some p) :
    let r : Run := { process, command, stage }
    (r.poll f).2.Leaves (Waits (r.poll f).1) := by
  intro r
  cases h with
  | toEnd =>
    change (r.pollEnd _ deadline f).2.Leaves (Waits (r.pollEnd _ deadline f).1)
    unfold pollEnd
    cases hx : f.exitCode? r.process with
    | some code => exact .done
    | none =>
      dsimp only
      by_cases hr : Instant.reached f.now deadline = true
      · rw [if_pos hr]
        exact waits_stop r _ f
      · rw [if_neg hr]
        exact .pending ⟨isRunning_of_exitCode? hp hx, by simpa using hr⟩
  | @forLine pattern limit w heard hw hd hheard =>
    change (r.pollLine w f).2.Leaves (Waits (r.pollLine w f).1)
    have hlines := LineWait.lines_poll w f.now (f.log process)
    have hclosed := LineWait.closed_poll w f.now (f.log process)
    have hgoes := hheard.poll hw f.now
    unfold pollLine
    rcases hpoll : w.poll f.now (f.log r.process) with ⟨log, notes, progress⟩
    have hpoll : w.poll f.now (f.log process) = (log, notes, progress) := hpoll
    rw [hpoll] at hlines hclosed hgoes
    rcases hgoes with ⟨hdecision, rfl, -⟩ | ⟨result, -, rfl⟩
    · refine .pending ?_
      have hset : (f.setLog process log).log process = log := Fleet.log_setLog hp log
      change w.decision f.now 0 ((f.setLog process log).log process) = none
      rw [hset, LineWait.decision_congr hlines hclosed, hdecision]
    · cases result with
      | ok found => exact waits_stop r _ _
      | error failure => exact waits_stop r _ _

theorem Situation.waits_poll {r : Run}
    (h : Situation aim deadline process signals turns f (.pending (.act r)))
    (hp : f.process? process = some p) : (r.poll f).2.Leaves (Waits (r.poll f).1) := by
  cases h with
  | waiting _ _ hawaits => exact hawaits.waits_poll hp
  | stopped _ _ _ _ _ hconcludes =>
    cases hconcludes with
    | @stopping command s =>
      exact waits_afterStopping
        { process, command, stage := .stopping s _ } _ (Stopping.waits_poll s f)

/-- When everything has settled a run that is under way has nothing to do. -/
theorem waits_settle (h : Holding (Tells aim deadline process signals) 0 turns t) {r : Run}
    (htask : (Timeline.settle (machinery settings) t).tasks[0]? = some (.pending (.act r))) :
    r.Waits (Timeline.settle (machinery settings) t).state := by
  have hkept : Kept (machinery settings) 0 (Tells aim deadline process signals) := kept_tells
  obtain ⟨u, ⟨before, task, hu, htells⟩, hs⟩ := settle_eq_pollAll (m := machinery settings)
    (P := fun u => ∃ before, Holding (Tells aim deadline process signals) 0 before u)
    (fun _ ⟨_, hu⟩ => ⟨_, hkept.delivered hu⟩) (fun _ ⟨_, hu⟩ => ⟨_, hkept.completed hu⟩)
    (fun _ id ⟨_, hu⟩ => ⟨_, hkept.turnsOf [id] hu⟩) ⟨turns, h⟩
  have hlast : Timeline.settle (machinery settings) t = pollTask (machinery settings) u 0 := by
    rw [hs, pollAll, htells.alone]
    rfl
  rw [hlast] at htask ⊢
  cases task with
  | ended time ending =>
    rw [ended_pollTask hu] at htask
    cases htask
  | pending errand =>
    obtain ⟨p, hp⟩ := htells.started
    obtain ⟨x, rfl, -⟩ := htells.situation.poll htells.consistent hp
    obtain ⟨hstate, hpolled⟩ := pollTask_pending (m := machinery settings) hu
    have hrest : (x.poll u.state).2 = .pending r :=
      ofProgress_eq_act (Option.some.inj (hpolled.symm.trans htask))
    have hwaits := htells.situation.waits_poll hp
    rw [hrest] at hwaits
    rw [hstate]
    cases hwaits with
    | pending hwaits => exact hwaits

theorem Situation.ended {time : Instant} {ending : Ending Ended}
    (h : Situation aim deadline process signals turns f (.ended time ending)) :
    ∃ ended, ending = .result ended := by
  cases h with
  | finished => exact ⟨_, rfl⟩
  | stopped _ _ _ _ _ hconcludes =>
    cases hconcludes with
    | failed => exact ⟨_, rfl⟩
    | stopped => exact ⟨_, rfl⟩

def after (settings : Settings) (arguments : Arguments) (f : Fleet) (count : Nat) :
    Timeline Fleet Run Ended :=
  play (machinery settings) { state := f } (.begin (.act arguments) :: List.replicate count .tick)

theorem after_eq (settings : Settings) (arguments : Arguments) (f : Fleet) (count : Nat) :
    after settings arguments f count =
      play (machinery settings) (Timeline.settle (machinery settings)
        (launch (machinery settings) { state := f } (.act arguments)))
        (List.replicate count .tick) :=
  play_cons _ _ _

def turnsUntil (settings : Settings) (arguments : Arguments) (f g : Fleet) (count : Nat) :
    List (Fleet × Fleet) :=
  let start : Timeline Fleet Run Ended := { state := f }
  (g, (launch (machinery settings) start (.act arguments)).state) ::
    (turnsOfStep (machinery settings) start (.act arguments) (List.replicate count .tick)).tail

theorem start_eq_startStage {arguments : Arguments}
    (hstart : f.start settings arguments.request = (g, .ok process)) :
    (machinery settings).start [] arguments f = startStage settings arguments process g := by
  change start settings arguments f = _
  unfold start
  dsimp only
  have hstart : f.start settings
      { command := arguments.command, cwd := arguments.cwd, debug := arguments.debug } = _ := hstart
  rw [hstart]

theorem tells_launch {arguments : Arguments} (hf : f.Each Supervised.Consistent)
    (hstart : f.start settings arguments.request = (g, .ok process)) :
    let aim := arguments.aim settings
    let begun := launch (machinery settings) { state := f } (.act arguments)
    Holding (Tells aim (aim.deadline g.now) process g.scene.system.signals) 0 [(g, begun.state)]
      begun := by
  intro aim begun
  have hcalls := Fleet.Calls.start settings arguments.request trivial (.refl : Fleet.Calls True f f)
  rw [hstart] at hcalls
  have hg := (Fleet.Onward.refl.calls hcalls).consistent hf
  obtain ⟨p, hp, -⟩ := (Fleet.spawned_start hstart).fresh
  have hstep : (Step.act arguments).command? = some arguments := rfl
  obtain ⟨hstate, htask, -⟩ := launch_command (m := machinery settings) hstep { state := f }
  have hstage := start_eq_startStage hstart
  have hgoes : Fleet.Calls False g begun.state := by
    rw [hstate]
    exact hstage ▸ calls_startStage .refl settings arguments process
  refine ⟨_, htask, (Fleet.Onward.refl.calls hgoes).consistent hg, ?_, rfl, ?_⟩
  · obtain ⟨q, hq, -⟩ := hgoes.process hp
    exact ⟨q, hq⟩
  · rw [hstate]
    exact hstage ▸ situation_startStage hg hp (Fleet.log_start hstart)

theorem situation_after {arguments : Arguments} (hf : f.Each Supervised.Consistent)
    (hstart : f.start settings arguments.request = (g, .ok process)) (count : Nat) :
    let aim := arguments.aim settings
    let last := after settings arguments f count
    ∃ task, last.tasks[0]? = some task ∧
      Situation aim (aim.deadline g.now) process g.scene.system.signals
        (turnsUntil settings arguments f g count) last.state task ∧
      ∀ r, task = .pending (.act r) → r.Waits last.state := by
  intro aim last
  obtain ⟨u, before, hu, hplay, hturns⟩ :=
    kept_tells.ticks Tells.tick count (tells_launch hf hstart)
  have hlast : last = Timeline.settle (machinery settings) u := (after_eq ..).trans hplay
  obtain ⟨task, htask, htells⟩ := kept_tells.settle hu
  refine ⟨task, hlast ▸ htask, ?_, ?_⟩
  · rw [← hturns] at htells
    rw [hlast]
    exact htells.situation
  · rintro r rfl
    rw [hlast]
    exact waits_settle hu htask

end Run

theorem settle_eq (level : Level) (ended : Ended) (f : Fleet) :
    (settle level ended f).output = ended.printed ∧
      (settle level ended f).code = some (status ended.code) ∧
        (settle level ended f).fleet = f := by
  unfold settle status
  cases ended.code with
  | ok code => exact ⟨rfl, rfl, rfl⟩
  | error failure =>
    dsimp only
    split <;> exact ⟨rfl, rfl, rfl⟩

theorem run_eq {argv : List String} {arguments : Arguments} (h : parse argv = .ok (.run arguments))
    (scene : World.Scene) :
    let settings := Settings.load scene.system.env
    let result := runScript (Run.machinery settings) { scene } [.act arguments]
    (∀ time ended, result.2.outcomes = [⟨time, .result ended⟩] →
      run argv scene = settle settings.level ended result.1) ∧
    (result.2.outcomes = [] →
      run argv scene =
        { code := none, entries := reported settings.level result.1.scene.journal
          fleet := result.1 }) := by
  unfold run
  rw [h]
  dsimp only
  generalize runScript _ _ _ = result
  refine ⟨fun time ended houtcomes => ?_, fun houtcomes => ?_⟩
  · rw [houtcomes]
  · rw [houtcomes]

/-- A run of the command line whose command has been started has no other outcomes than these.
Without a line to wait for it ends as soon as the end of the command is reported, with the code and
the complete output of the command, and has signalled nobody; if that does not come before the limit
runs out, the command is stopped at that moment, and the run ends with the complete output and code
1 when that has succeeded. With a line to wait for the command is stopped in any case, before the
run ends: at the moment at which a line matches, the log closes, or the limit runs out, and at once
if the text is no pattern. When that has succeeded the run ends with code 0 if a line has matched,
and has printed its named groups in the order of the pattern; if no line has, it has printed nothing
and its code is 1. A command that cannot be stopped makes the run fail in all cases: nothing is
printed, and the code is 2 if the failure is one of the library. -/
theorem reports_of_run (scene : World.Scene) {argv : List String} {arguments : Arguments}
    {g : Fleet}
    {process : ProcessId} :
    let settings := Settings.load scene.system.env
    let fleet : Fleet := { scene }
    let aim := arguments.aim settings
    parse argv = .ok (.run arguments) →
    fleet.start settings arguments.request = (g, .ok process) →
    g.log process = {} ∧ g.scene.system.signals = scene.system.signals ∧
    (∀ count, ∃ task, (Run.after settings arguments fleet count).tasks[0]? = some task ∧
      Run.Situation aim (aim.deadline g.now) process scene.system.signals
        (Run.turnsUntil settings arguments fleet g count)
        (Run.after settings arguments fleet count).state task ∧
      ∀ r, task = .pending (.act r) → r.Waits (Run.after settings arguments fleet count).state) ∧
    ∃ count, (run argv scene).fleet = (Run.after settings arguments fleet count).state ∧
      ((∃ time ended,
          (Run.after settings arguments fleet count).tasks[0]? =
            some (.ended time (.result ended)) ∧
          (run argv scene).output = ended.printed ∧
          (run argv scene).code = some (status ended.code)) ∨
        (run argv scene).code = none ∧
          (count = patience ∨
            nextMoment (Run.machinery settings) (Run.after settings arguments fleet count) =
              none)) := by
  intro settings fleet aim hparse hstart
  subst aim fleet settings
  have hempty : ({ scene } : Fleet).Each Supervised.Consistent := fun id p hp => by cases hp
  have hsignals : g.scene.system.signals = scene.system.signals :=
    (Fleet.spawned_start hstart).signals
  have hsituation := fun count => Run.situation_after hempty hstart count
  refine ⟨Fleet.log_start hstart, hsignals, hsignals ▸ hsituation, ?_⟩
  obtain ⟨count, hstate, houtcome⟩ := runScript_act
    (Run.machinery (Settings.load scene.system.env)) { scene } arguments
  obtain ⟨hended, hnone⟩ := run_eq hparse scene
  -- the script is not to be run any further
  generalize runScript (Run.machinery (Settings.load scene.system.env)) { scene } [.act arguments] =
    result at hended hnone hstate houtcome
  refine ⟨count, ?_⟩
  rcases houtcome with ⟨time, ending, htask, houtcomes⟩ | ⟨houtcomes, hnever⟩
  · obtain ⟨task, hlast, hstands, -⟩ := hsituation count
    obtain rfl := Option.some.inj (hlast.symm.trans htask)
    obtain ⟨ended, rfl⟩ := hstands.ended
    obtain ⟨houtput, hcode, hfleet⟩ :=
      settle_eq (Settings.load scene.system.env).level ended result.1
    rw [hended time ended houtcomes]
    exact ⟨hfleet.trans hstate, .inl ⟨time, ended, htask, houtput, hcode⟩⟩
  · rw [hnone houtcomes]
    exact ⟨hstate, .inr ⟨rfl, hnever⟩⟩

/-- A line has matched, but the command cannot be killed: the match is not printed. -/
theorem reports_of_run_of_survivor :
    let program : Program :=
      { shell := { pid := 100, ppid := 1, pgid := 100, onTerm := none, onKill := none }
        events := [(Instant.ofMillis 3, .output [112, 111, 114, 116, 32, 56, 48, 10])] }
    let scene : World.Scene := .opening { programs := [.program program] } []
    let argv := ["wrangler dev", "--until", "port (?P<port>[0-9]+)"]
    let arguments : Arguments :=
      { command := "wrangler dev", awaited := some "port (?P<port>[0-9]+)" }
    let started := ({ scene } : Fleet).start (Settings.load scene.system.env) arguments.request
    parse argv = .ok (.run arguments) ∧ started.2 = .ok 0 ∧
      (run argv scene).fleet.output 0 = "port 80" ∧
      (run argv scene).output = "" ∧ (run argv scene).code = some (.ok 2) ∧
      ∃ turn late failure, turn.1.scene.system.signals = #[] ∧
        Closing 0 (turn :: late) (.done (.error failure)) ∧ failure.isOwn = true := by
  intro program scene argv arguments started
  have hparse : parse argv = .ok (.run arguments) := by decide +kernel
  have hid : started.2 = .ok 0 := by decide +kernel
  have hline : (run argv scene).fleet.output 0 = "port 80" := by decide +kernel
  have hreport : (run argv scene).output = "" ∧ (run argv scene).code = some (.ok 2) := by
    decide +kernel
  have hcompiled : (PatternText.compile { text := "port (?P<port>[0-9]+)" }).toBool = true := by
    decide +kernel
  have hstart : ({ scene } : Fleet).start (Settings.load scene.system.env) arguments.request =
      (started.1, .ok 0) := Prod.ext rfl hid
  refine ⟨hparse, hid, hline, hreport.1, hreport.2, ?_⟩
  subst started arguments argv scene program
  obtain ⟨-, -, hall, count, -, ⟨time, ended, htask, -, hcode⟩ | ⟨hnone, -⟩⟩ :=
    reports_of_run _ hparse hstart
  · obtain ⟨task, hlast, hsituation, -⟩ := hall count
    obtain rfl := Option.some.inj (hlast.symm.trans htask)
    have hstatus : status ended.code = .ok 2 := Option.some.inj (hcode.symm.trans hreport.2)
    obtain ⟨pattern, hpattern⟩ : ∃ pattern,
        PatternText.compile { text := "port (?P<port>[0-9]+)" } = .ok pattern := by
      cases hc : PatternText.compile { text := "port (?P<port>[0-9]+)" } with
      | ok pattern => exact ⟨pattern, rfl⟩
      | error failure =>
        rw [hc] at hcompiled
        cases hcompiled
    simp only [Arguments.aim, hpattern] at hsituation
    cases hsituation with
    | finished haim => cases haim
    | stopped hturns hsignals hle hverdict hclosing hconcludes =>
      cases hconcludes with
      | @failed failure =>
        refine ⟨_, _, failure, hsignals, hclosing, ?_⟩
        by_contra hown
        rw [status, if_neg hown] at hstatus
        cases hstatus
      | @stopped verdict =>
        -- a line is waited for, and neither of its two verdicts leads to that code
        rw [Aim.verdict?] at hverdict
        split at hverdict
        · obtain rfl := Option.some.inj hverdict
          cases hstatus
        · split at hverdict
          · obtain rfl := Option.some.inj hverdict
            cases hstatus
          · cases hverdict
  · rw [hreport.2] at hnone
    cases hnone

end CommandLine

end Overseer
