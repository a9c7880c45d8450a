import Overseer.Proofs.CommandLine.RunOutcomes
import Overseer.Proofs.Tree.GroupNewcomers
import Overseer.Proofs.World.Population

/-!
# What a run leaves behind

A run that waits for a line stops its command at the end. It ends the tree of the command if the end
of the command has not been reported by then; then nobody of the group is left but those who came to
it meanwhile. If the end has been reported, the group is not looked at: whoever of it is alive goes
on living. -/

namespace Overseer

open Overseer.Tree World Timeline

namespace World

def ProcessSpec.Answers (x : ProcessSpec) : Prop :=
  x.obstacles.group = none ∧ x.obstacles.status = none

def Program.Answers (p : Program) : Prop := p.shell.Answers ∧ ∀ b ∈ p.family, b.spec.Answers

namespace System

structure Candid (w : System) : Prop where
  sound : w.Sound
  byPid : w.table.ByPid
  posix : w.windows = false
  answers : w.Peopled (·.Answers) fun _ _ => True

variable {a b w : System}

theorem lasting_answers : Lasting (·.Answers) fun _ _ => True :=
  ⟨fun _ h => h, fun _ h => h, fun _ h => h, fun _ _ => trivial⟩

theorem Candid.goOn (h : a.Candid) (he : a.Evolves b) (hages : a.Ages b)
    (hr : Retains (·.Answers) (fun _ _ => True) a b) : b.Candid where
  sound := he.sound h.sound
  byPid := h.byPid.becomes hages.table
  posix := hages.windows.trans h.posix
  answers := hr.peopled h.answers

theorem Candid.advance (h : w.Candid) (t : Instant) : (w.advance t).Candid :=
  h.goOn (evolves_advance w t) (ages_advance w t)
    (Peopled.retains_advance lasting_answers h.answers t)

theorem Candid.emptyPipe (h : w.Candid) (c : ChildId) : (w.emptyPipe c).Candid :=
  h.goOn (evolves_emptyPipe w c) (ongoing_ages.emptyPipe w c) (retains_onPipe w c _)

theorem Candid.signalProcess (h : w.Candid) (p : ProcessRef) (signal : Signal) :
    (w.signalProcess p signal).1.Candid :=
  h.goOn (evolves_signalProcess w p signal) (ages_signalProcess w p signal)
    (retains_signalProcess lasting_answers h.answers.present p signal)

theorem Candid.signalGroup (h : w.Candid) (pgid : Int) (signal : Signal) :
    (w.signalGroup pgid signal).1.Candid :=
  h.goOn (evolves_signalGroup w pgid signal) (ages_signalGroup w pgid signal)
    (retains_signalGroup lasting_answers h.answers.present pgid signal)

theorem retains_foldl_bear {births : List Birth} (h : ∀ b ∈ births, b.spec.Answers) (w : System) :
    Retains (·.Answers) (fun _ _ => True) w (births.foldl bear w) := by
  induction births generalizing w with
  | nil => exact .refl w
  | cons b births ih =>
    obtain ⟨hb, hbirths⟩ := List.forall_mem_cons.mp h
    exact (retains_bear lasting_answers w b hb).trans (ih hbirths _)

theorem Peopled.startProgram (h : w.Peopled (·.Answers) fun _ _ => True) {p : Program}
    (hp : p.Answers) : (w.startProgram p).1.Peopled (·.Answers) fun _ _ => True := by
  have hshell : (w.withShell p).Peopled (·.Answers) fun _ _ => True := by
    refine ⟨fun x hx => ?_, h.coming⟩
    rcases ProcessTable.mem_insert hx with rfl | hx
    · exact hp.1
    · exact h.present x hx
  rw [startProgram_eq]
  refine Retains.peopled ?_ hshell
  refine (retains_foldl_bear hp.2 _).trans (retains_foldl (fun u entry => ?_) p.events _)
  exact retains_settleOrPlan lasting_answers u entry.1 trivial

theorem Candid.spawn (h : w.Candid) (hp : ∀ p, .program p ∈ w.programs → p.Answers)
    (launch : Launch) : (w.spawn launch).1.Candid := by
  refine ⟨(evolves_spawn w launch).sound h.sound, h.byPid.becomes (ages_spawn w launch).table,
    (ages_spawn w launch).windows.trans h.posix, ?_⟩
  have hrecord : ∀ programs spawned,
      { w with programs, spawned }.Peopled (·.Answers) fun _ _ => True :=
    fun _ _ => ⟨h.answers.present, h.answers.coming⟩
  unfold System.spawn
  rcases hprograms : w.programs with _ | ⟨next, rest⟩
  · exact hrecord _ _
  · cases next with
    | refused reason => exact hrecord _ _
    | program p =>
      exact (hrecord rest (w.spawned.push ⟨launch, some p.shell.pid⟩)).startProgram
        (hp p (hprograms ▸ List.mem_cons_self))

theorem candid_opening (hempty : w.table = [] ∧ w.agenda = []) (hposix : w.windows = false)
    {others : List Birth} (hothers : ∀ b ∈ others, b.spec.Answers) :
    (Scene.opening w others).system.Candid := by
  obtain ⟨htable, hagenda⟩ := hempty
  have hbare : w.Candid := by
    refine ⟨.of_empty htable hagenda, ?_, hposix, ?_, ?_⟩
    · rw [htable]
      exact List.Pairwise.nil
    · rw [htable]
      exact List.forall_mem_nil _
    · rw [hagenda]
      exact List.forall_mem_nil _
  exact hbare.goOn (evolves_foldl evolves_bear others w) (ages_foldl ages_bear others w)
    (retains_foldl_bear hothers w)

end System

end World

namespace Fleet

variable {f g : Fleet}

/-- Who calls does not make anybody dumb, as long as no process is started. -/
theorem Calls.candid (h : Calls False f g) (hf : f.scene.system.Candid) :
    g.scene.system.Candid := by
  induction h with
  | refl => exact hf
  | report _ _ ih => exact ih
  | signalProcess p signal _ ih => exact ih.signalProcess p signal
  | signalGroup pgid signal _ ih => exact ih.signalGroup pgid signal
  | setLog _ _ _ ih => exact ih
  | registry _ _ ih => exact ih
  | start _ _ h _ _ => exact h.elim

theorem candid_start (hf : f.scene.system.Candid)
    (hp : ∀ p, .program p ∈ f.scene.system.programs → p.Answers) (settings : Settings)
    (request : Request) : (f.start settings request).1.scene.system.Candid := by
  rcases f.start_cases settings request with
    hs | ⟨launch, ⟨reason, -, hs⟩ | ⟨p, notes, -, -, -, -, hs⟩⟩ <;> rw [hs]
  · exact hf
  · exact hf.spawn hp launch
  · exact hf.spawn hp launch

end Fleet

namespace Stopping

variable {found : List ProcessRef} {w after : System} {f : Fleet} {s : Stopping}

/-- What stopping a process answers for: when its tree has been ended nobody of those who were found
is left. -/
def Accounts (found : List ProcessRef) (w : System) : Progress Stopping Result → Prop
  | .pending s =>
    match s.tree with
    | some tree => Termination.Accounts found w (.pending tree)
    | none => Watch found [] w
  | .done (.ok ()) => Watch found [] w
  | .done (.error _) => True

theorem Accounts.evolves {progress : Progress Stopping Result} (h : Accounts found w progress)
    (he : w.Evolves after) : Accounts found after progress := by
  unfold Accounts at h ⊢
  split at h
  · split at h
    · obtain ⟨v, hv, hw⟩ := h
      exact ⟨v, hv, hw.evolves he⟩
    · exact h.evolves he
  · exact h.evolves he
  · trivial

theorem accounts_awaitEnd (s : Stopping) (h : Watch found [] f.scene.system) :
    Accounts found (s.awaitEnd f).1.scene.system (s.awaitEnd f).2 := by
  unfold awaitEnd
  split
  · exact h
  · exact h

/-- What the ending of the tree answers for, stopping the process answers for. -/
theorem accounts_ofTree {tree : Termination} (hs : s.tree = some tree)
    (h : Termination.Accounts found (tree.poll f.scene).1.system (tree.poll f.scene).2) :
    Accounts found (s.poll f).1.scene.system (s.poll f).2 := by
  unfold poll
  rw [hs]
  rcases hp : tree.poll f.scene with ⟨scene, rest | ⟨failure | ⟨⟩⟩⟩ <;> rw [hp] at h <;>
    dsimp only <;>
    rw [hp]
  · exact h
  · trivial
  · exact accounts_awaitEnd s (f := { f with scene }) h

theorem accounts_poll (h : Accounts found f.scene.system (.pending s)) :
    Accounts found (s.poll f).1.scene.system (s.poll f).2 := by
  cases hs : s.tree with
  | some tree =>
    have htree : Termination.Accounts found f.scene.system (.pending tree) := by
      simpa only [Accounts, hs] using h
    exact accounts_ofTree hs (Termination.accounts_poll htree)
  | none =>
    have hwatch : Watch found [] f.scene.system := by simpa only [Accounts, hs] using h
    unfold poll
    rw [hs]
    exact accounts_awaitEnd s hwatch

theorem accounts_start {process : ProcessId} {p : Supervised} (hw : f.scene.system.Sound)
    (hp : f.process? process = some p) (hrunning : p.isRunning = true)
    (hm : (members f.scene.system p.pid).1 = .ok found) :
    Accounts found (start process f).1.scene.system (start process f).2 := by
  unfold start
  rw [hp]
  dsimp only
  rw [if_pos hrunning]
  exact accounts_ofTree rfl (Termination.accounts_start hw (terminationOf p) hm)

theorem start_of_error {process : ProcessId} {p : Supervised} {failure : Failure}
    (hp : f.process? process = some p) (hrunning : p.isRunning = true)
    (hm : (members f.scene.system p.pid).1 = .error failure) :
    (start process f).2 = .done (.error failure) := by
  have hfailed : ((terminationOf p).poll f.scene).2 = .done (.error failure) :=
    Termination.start_of_error (s := f.scene) (terminationOf p) hm
  unfold start poll
  rw [hp]
  dsimp only
  rw [if_pos hrunning]
  rcases hpoll : (terminationOf p).poll f.scene with ⟨scene, progress⟩
  rw [hpoll] at hfailed
  obtain rfl : progress = .done (.error failure) := hfailed
  rfl

theorem start_of_reported {process : ProcessId} (h : (f.exitCode? process).isSome = true) :
    start process f = (f, .done (.ok ())) := by
  unfold start
  cases hp : f.process? process with
  | none => rfl
  | some p =>
    rw [Fleet.exitCode?, hp, Option.bind_some] at h
    exact if_neg (by simp [Supervised.isRunning, Option.ne_none_iff_isSome.mpr h])

end Stopping

namespace CommandLine

section

variable {process : ProcessId} {turns : List (Fleet × Fleet)} {turn : Fleet × Fleet}
  {progress : Progress Stopping Stopping.Result} {found : List ProcessRef} {p : Supervised}
  {failure : Failure}

theorem Closing.ne_nil (h : Closing process turns progress) : turns ≠ [] := by
  cases h <;> simp

theorem Closing.head?_of_append (h : Closing process turns progress) {last : Fleet × Fleet}
    (hhead : (turns ++ [last]).head? = some turn) : turns.head? = some turn := by
  rwa [List.head?_append_of_ne_nil _ h.ne_nil] at hhead

/-- Where the end has been reported at the beginning, that is all, and nothing is done. -/
theorem Closing.of_reported (h : Closing process turns progress) (hhead : turns.head? = some turn)
    (hx : (turn.1.exitCode? process).isSome = true) :
    progress = .done (.ok ()) ∧ turns = [turn] ∧
      turn.2.scene.system = turn.1.scene.system := by
  induction h with
  | start hsystem =>
    obtain rfl := Option.some.inj hhead
    rw [Stopping.start_of_reported hx] at hsystem ⊢
    exact ⟨rfl, rfl, hsystem⟩
  | poll hclosing _ ih => cases (ih (hclosing.head?_of_append hhead)).1

/-- Where it has not been, and the members cannot be found out, that is all as well. -/
theorem Closing.of_error (h : Closing process turns progress) (hhead : turns.head? = some turn)
    (hp : turn.1.process? process = some p) (hrunning : p.isRunning = true)
    (hm : (members turn.1.scene.system p.pid).1 = .error failure) :
    progress = .done (.error failure) := by
  induction h with
  | start _ =>
    obtain rfl := Option.some.inj hhead
    exact Stopping.start_of_error hp hrunning hm
  | poll hclosing _ ih => cases ih (hclosing.head?_of_append hhead)

theorem Closing.accounts (h : Closing process turns progress) (hhead : turns.head? = some turn)
    (hsound : turn.1.scene.system.Sound) (hp : turn.1.process? process = some p)
    (hrunning : p.isRunning = true) (hm : (members turn.1.scene.system p.pid).1 = .ok found)
    (horder : turns.Pairwise fun a b => a.2.Onward b.1) :
    ∃ last, turns.getLast? = some last ∧ Stopping.Accounts found last.2.scene.system progress := by
  induction h with
  | start hsystem =>
    obtain rfl := Option.some.inj hhead
    exact ⟨_, rfl, hsystem ▸ Stopping.accounts_start hsound hp hrunning hm⟩
  | poll hclosing hsystem ih =>
    obtain ⟨hturns, -, hnext⟩ := List.pairwise_append.mp horder
    obtain ⟨last, hlast, haccounts⟩ := ih (hclosing.head?_of_append hhead) hturns
    have honward := hnext last (List.mem_of_getLast? hlast) _ List.mem_cons_self
    have hnow := haccounts.evolves (honward.system System.ongoing_evolves)
    exact ⟨_, List.getLast?_concat .., hsystem ▸ Stopping.accounts_poll hnow⟩

end

namespace Run

variable {settings : Settings} {g f : Fleet} {turns : List (Fleet × Fleet)}
  {t : Timeline Fleet Run Ended} {task : Task Run Ended}

/-- The turns of a run since some moment, one after another, and how its fleet goes on meanwhile. -/
structure Traced (g : Fleet) (turns : List (Fleet × Fleet)) (t : Timeline Fleet Run Ended)
    (_ : Task Run Ended) : Prop where
  alone : t.tasks.size = 1
  onward : g.Onward t.state
  candid : t.state.scene.system.Candid
  each : ∀ a ∈ turns, g.Onward a.1 ∧ a.1.scene.system.Candid ∧ a.1.Onward t.state ∧
    a.2.Onward t.state
  order : turns.Pairwise fun a b => a.2.Onward b.1
  signals : ∀ a, turns.getLast? = some a →
    t.state.scene.system.signals = a.2.scene.system.signals

theorem Traced.goOn (h : Traced g turns t task) (hf : ∀ a : Fleet, a.Onward t.state → a.Onward f)
    (hcandid : f.scene.system.Candid)
    (hsignals : f.scene.system.signals = t.state.scene.system.signals) :
    Traced g turns { t with state := f } task where
  alone := h.alone
  onward := hf _ h.onward
  candid := hcandid
  each a ha := by
    obtain ⟨hg, hc, hfirst, hsecond⟩ := h.each a ha
    exact ⟨hg, hc, hf _ hfirst, hf _ hsecond⟩
  order := h.order
  signals a ha := hsignals.trans (h.signals a ha)

theorem kept_traced : Kept (machinery settings) 0 (Traced g) where
  deliver {_ t _} h := h.goOn (fun _ ha => .readOutputs ha)
    (Fleet.system_readOutputs (fun _ c hw => hw.emptyPipe c) h.candid) (Fleet.signals_readOutputs _)
  complete {_ t _} h := h.goOn (fun _ ha => .watchEnds ha)
    ((Fleet.system_watchEnds t.state).symm ▸ h.candid)
    (congrArg System.signals (Fleet.system_watchEnds _))
  other {_ t _ other} hne h := by
    rw [pollTask_of_not_pending]
    · exact h
    · intro errand hp
      have hlt := (Array.getElem?_eq_some_iff.mp hp).1
      rw [h.alone] at hlt
      exact hne (Nat.lt_one_iff.mp hlt)
  poll {turns t errand} htask h := by
    have hcalls : Fleet.Calls False t.state (pollTask (machinery settings) t 0).state := by
      obtain ⟨r, -, hp⟩ | ⟨-, hs, -⟩ := pollTask_cases (m := machinery settings) t 0
      · rw [hp]
        exact calls_poll .refl r
      · rw [hs]
        exact .refl
    refine ⟨(size_pollTask t 0).trans h.alone, .calls h.onward hcalls, hcalls.candid h.candid,
      fun a ha => ?_, ?_, fun a ha => ?_⟩
    · rcases List.mem_append.mp ha with ha | ha
      · obtain ⟨hg, hc, hfirst, hsecond⟩ := h.each a ha
        exact ⟨hg, hc, .calls hfirst hcalls, .calls hsecond hcalls⟩
      · obtain rfl := List.mem_singleton.mp ha
        exact ⟨h.onward, h.candid, .calls .refl hcalls, .refl⟩
    · refine List.pairwise_append.mpr ⟨h.order, List.pairwise_singleton _ _, fun a ha b hb => ?_⟩
      obtain rfl := List.mem_singleton.mp hb
      exact (h.each a ha).2.2.2
    · rw [List.getLast?_concat] at ha
      obtain rfl := Option.some.inj ha
      rfl

theorem traced_after {arguments : Arguments} {process : ProcessId} (hg : g.scene.system.Candid)
    (hstart : f.start settings arguments.request = (g, .ok process)) (count : Nat) :
    ∃ task, Traced g (turnsUntil settings arguments f g count) (after settings arguments f count)
      task := by
  let begun := launch (machinery settings) { state := f } (.act arguments)
  have hstep : (Step.act arguments).command? = some arguments := rfl
  obtain ⟨hstate, htask, -⟩ := launch_command (m := machinery settings) hstep { state := f }
  have hstage := start_eq_startStage hstart
  have hcalls : Fleet.Calls False g begun.state := by
    rw [hstate]
    exact hstage ▸ calls_startStage .refl settings arguments process
  have hbegun : Holding (Traced g) 0 [(g, begun.state)] begun := by
    refine ⟨_, htask, rfl, .calls .refl hcalls, hcalls.candid hg, ?_,
      List.pairwise_singleton _ _, ?_⟩
    · intro a ha
      obtain rfl := List.mem_singleton.mp ha
      exact ⟨.refl, hg, .calls .refl hcalls, .refl⟩
    · intro a ha
      obtain rfl := Option.some.inj ha
      rfl
  have hkept : Kept (machinery settings) 0 (Traced g) := kept_traced
  obtain ⟨u, before, hu, hplay, hturns⟩ := hkept.ticks
    (fun {_ t _ moment} _ _ h => h.goOn (fun _ ha => .advance moment ha)
      (h.candid.advance moment) (System.signals_advance _ _)) count hbegun
  obtain ⟨task, -, htraced⟩ := hkept.settle hu
  have hafter : after settings arguments f count = Timeline.settle (machinery settings) u :=
    (after_eq ..).trans hplay
  rw [← hturns] at htraced
  exact ⟨task, hafter ▸ htraced⟩

theorem Traced.group {early late : List (Fleet × Fleet)} {turn : Fleet × Fleet}
    {process : ProcessId} {p : Supervised} (h : Traced g turns t task)
    (hturns : turns = early ++ turn :: late) (hp : g.process? process = some p)
    (hclosing : Closing process (turn :: late) (.done (.ok ()))) :
    (turn.1.exitCode? process = none ∧
        (∀ x ∈ t.state.scene.system.table, x.pgid = p.pid → x.zombie = false →
          ∀ y ∈ turn.1.scene.system.table, y.serial ≠ x.serial) ∨
      (turn.1.exitCode? process).isSome = true ∧
        t.state.scene.system.signals = turn.1.scene.system.signals) := by
  subst hturns
  obtain ⟨hg, hcandid, hfirst, -⟩ := h.each turn (List.mem_append_right early List.mem_cons_self)
  obtain ⟨q, hq, hsame⟩ := hg.process Supervised.enduring_termination hp
  have hpid : q.pid = p.pid := congrArg Termination.pid hsame
  cases hx : turn.1.exitCode? process with
  | some code =>
    obtain ⟨-, hlate, hsystem⟩ := hclosing.of_reported rfl (by simp [hx])
    have hlast := h.signals turn (by rw [hlate, List.getLast?_concat])
    exact .inr ⟨rfl, hsystem ▸ hlast⟩
  | none =>
    refine .inl ⟨rfl, ?_⟩
    have hrunning : q.isRunning = true := by
      rw [Fleet.exitCode?, hq, Option.bind_some] at hx
      simp [Supervised.isRunning, hx]
    cases hm : (members turn.1.scene.system q.pid).1 with
    | error failure => cases hclosing.of_error rfl hq hrunning hm
    | ok found =>
      obtain ⟨a, ha, haccounts⟩ := hclosing.accounts rfl hcandid.sound hq hrunning hm
        (List.pairwise_append.mp h.order).2.1
      have hlast := (h.each a (List.mem_append_right early (List.mem_of_getLast? ha))).2.2.2
      have hwatch : Watch found [] t.state.scene.system :=
        haccounts.evolves (hlast.system System.ongoing_evolves)
      exact newcomers hcandid.sound hcandid.byPid hcandid.posix
        (fun x hx _ => hcandid.answers.present x hx) (hpid ▸ hm)
        (hfirst.system System.ongoing_evolves) fun _ => hwatch.dead

end Run

/-- When a run that waits for a line has ended with code 0 or 1 it has stopped its command. If the
end of the command had not been reported when that began, those who are alive in the group of the
command are newcomers: they were not there then. If it had been reported, nobody has been signalled.
-/
theorem group_after_run {scene : World.Scene} {argv : List String} {arguments : Arguments}
    {text : String} {g : Fleet} {process : ProcessId} {p : Supervised} :
    let settings := Settings.load scene.system.env
    let fleet : Fleet := { scene }
    let last := (run argv scene).fleet.scene.system
    scene.system.Candid → (∀ q, .program q ∈ scene.system.programs → q.Answers) →
    parse argv = .ok (.run arguments) → arguments.awaited = some text →
    fleet.start settings arguments.request = (g, .ok process) → g.process? process = some p →
    (run argv scene).code = some (.ok 0) ∨ (run argv scene).code = some (.ok 1) →
    ∃ count early turn late,
      Run.turnsUntil settings arguments fleet g count = early ++ turn :: late ∧
      (run argv scene).fleet = (Run.after settings arguments fleet count).state ∧
      Closing process (turn :: late) (.done (.ok ())) ∧
      (turn.1.exitCode? process = none ∧
          (∀ x ∈ last.table, x.pgid = p.pid → x.zombie = false →
            ∀ y ∈ turn.1.scene.system.table, y.serial ≠ x.serial) ∨
        (turn.1.exitCode? process).isSome = true ∧ last.signals = scene.system.signals) := by
  intro settings fleet last hcandid hprograms hparse hawaited hstart hp hcode
  subst settings fleet last
  obtain ⟨-, -, hall, count, hfleet, ⟨time, ended, htask, -, hended⟩ | ⟨hnone, -⟩⟩ :=
    reports_of_run scene hparse hstart
  · obtain ⟨task, hlast, hstanding, -⟩ := hall count
    obtain rfl := Option.some.inj (hlast.symm.trans htask)
    have hg := Fleet.candid_start (f := { scene }) hcandid hprograms
      (Settings.load scene.system.env) arguments.request
    rw [hstart] at hg
    obtain ⟨_, htraced⟩ := Run.traced_after hg hstart count
    -- the run itself is not to be looked into
    generalize run argv scene = report at hfleet hended hcode ⊢
    rw [hfleet]
    cases hstanding with
    | finished haim =>
      unfold Arguments.aim at haim
      rw [hawaited] at haim
      dsimp only at haim
      split at haim <;> cases haim
    | stopped hturns hsignals _ _ hclosing hconcludes =>
      cases hconcludes with
      | @failed failure =>
        rw [hended, status] at hcode
        split at hcode <;> rcases hcode with hcode | hcode <;> cases hcode
      | stopped =>
        refine ⟨count, _, _, _, hturns, rfl, hclosing, ?_⟩
        exact hsignals ▸ htraced.group hturns hp hclosing
  · rw [hnone] at hcode
    rcases hcode with hcode | hcode <;> cases hcode

def parental : Program :=
  { shell := { pid := 100, ppid := 1, pgid := 100 }
    family := [{ spec := { pid := 101, ppid := 100, pgid := 100 } }]
    events := [(Instant.ofMillis 3, .output [97, 10]), (Instant.ofMillis 10, .exit 0)] }

/-- A line matches before the shell exits: of those who were in the group then nobody is alive. -/
theorem group_after_run_of_match :
    let scene : World.Scene := .opening { programs := [.program parental] } []
    let argv := ["wrangler dev", "--until", "a"]
    let last := (run argv scene).fleet.scene.system
    (run argv scene).code = some (.ok 0) ∧ last.signals.size = 3 ∧
      ∃ turn late, Closing 0 (turn :: late) (.done (.ok ())) ∧
        ∀ x ∈ last.table, x.pgid = 100 → x.zombie = false →
          ∀ y ∈ turn.1.scene.system.table, y.serial ≠ x.serial := by
  intro scene argv last
  let arguments : Arguments := { command := "wrangler dev", awaited := some "a" }
  let started := ({ scene } : Fleet).start (Settings.load scene.system.env) arguments.request
  have hcandid : scene.system.Candid :=
    System.candid_opening ⟨rfl, rfl⟩ rfl (List.forall_mem_nil _)
  have hprograms : ∀ q, .program q ∈ scene.system.programs → q.Answers := by
    intro q hq
    obtain rfl := Spawnable.program.inj (List.mem_singleton.mp hq)
    exact ⟨⟨rfl, rfl⟩, List.forall_mem_singleton.mpr ⟨rfl, rfl⟩⟩
  have hparse : parse argv = .ok (.run arguments) := by decide +kernel
  have hid : started.2 = .ok 0 := by decide +kernel
  have hpid : (started.1.process? 0).map (·.pid) = some 100 := by decide +kernel
  have hcode : (run argv scene).code = some (.ok 0) := by decide +kernel
  have hsignals : last.signals.size = 3 := by decide +kernel
  obtain ⟨p, hp, hpid⟩ := Option.map_eq_some_iff.mp hpid
  refine ⟨hcode, hsignals, ?_⟩
  obtain ⟨count, early, turn, late, -, -, hclosing, ⟨-, hnew⟩ | ⟨-, hnone⟩⟩ :=
    group_after_run hcandid hprograms hparse rfl (Prod.ext rfl hid) hp (.inl hcode)
  · exact ⟨turn, late, hclosing, hpid ▸ hnew⟩
  · have hsize : last.signals.size = 0 := congrArg Array.size hnone
    rw [hsignals] at hsize
    cases hsize

/-- The shell exits before a line matches: its child is alive when the run has ended with code 1,
and nobody has been signalled, although every call succeeds and nobody has been born meanwhile. -/
theorem run_leaves_child :
    let scene : World.Scene := .opening { programs := [.program parental] } []
    let argv := ["wrangler dev", "--until", "never", "--timeout", "5"]
    let last := (run argv scene).fleet.scene.system
    scene.system.windows = false ∧ scene.system.groupErrors = [] ∧
      parental.shell.obstacles = {} ∧ (∀ b ∈ parental.family, b.spec.obstacles = {} ∧ b.delay = 0) ∧
      (run argv scene).code = some (.ok 1) ∧ last.signals = #[] ∧
      ∃ x ∈ last.table, x.pgid = parental.shell.pid ∧ x.zombie = false := by
  decide +kernel

end CommandLine

end Overseer
