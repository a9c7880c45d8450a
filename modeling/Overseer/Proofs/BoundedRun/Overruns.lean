import Overseer.Proofs.Session.SettledSessions
import Overseer.Proofs.Supervision.ExitCodes
import Overseer.Proofs.Supervision.Spawning
import Overseer.Proofs.Tree.Ending

/-!
# Runs that take too long

When the limit of a bounded run has run out, its process is stopped: the ending of the tree takes
its course, then the end of the process is waited for, and the run fails with the complete output
and is taken off the registry. If the ending of the tree fails, so does the run, and the registry is
left alone (`BoundedRun.Late`). In each turn of the run this follows from what the turn before has
led to, whatever else goes on in the session. -/

namespace Overseer

open Overseer.Tree Number World

/-- Each process is consistent, the registry is in order, and so are the serials. -/
structure Fleet.Sane (f : Fleet) : Prop where
  consistent : f.Each Supervised.Consistent
  registered : f.Registered
  sound : f.scene.system.Sound

theorem Fleet.Sane.calls {k : Prop} {f g : Fleet} (h : f.Sane) (hc : Calls k f g) : g.Sane where
  consistent := h.consistent.calls hc (fun _ _ hs hp => hp.same hs) fun _ hp => hp.consistent
  registered := h.registered.calls hc
  sound := hc.evolves.sound h.sound

namespace Session

open Timeline

/-- The end of a process has been reported with a code, and its log is closed on some output. -/
def Concluded (s : Session) (id : ProcessId) (code : Int) (output : String) : Prop :=
  ∃ p, s.fleet.process? id = some p ∧ p.isRunning = false ∧ p.log.closed = true ∧
    p.exitCode? = some code ∧ p.log.snapshot = output

def KeepsRegistry (turns : List (Session × Session)) : Prop :=
  ∀ turn ∈ turns, turn.2.fleet.registry = turn.1.fleet.registry

def Inert (turns : List (Session × Session)) : Prop :=
  ∀ turn ∈ turns, turn.2.fleet.registry = turn.1.fleet.registry ∧ turn.2.system = turn.1.system

section

variable {s : Session} {w : System} {others : List Birth} {t u : Timeline Session Activity Result}
  {id : ProcessId} {code : Int} {output : String} {turns more : List (Session × Session)}
  {turn : Session × Session}

theorem sane_later (h : Later machinery { state := s.afresh w others } t) : t.state.fleet.Sane :=
  ⟨consistent_later h, registered_later h, sound_later h⟩

theorem concluded_of_exitCode? (hall : s.fleet.Each Supervised.Consistent)
    (hx : s.fleet.exitCode? id = some code) : s.Concluded id code (s.fleet.output id) := by
  obtain ⟨p, hp, hrunning, hclosed, hcode⟩ := Fleet.exited_of_exitCode? hall hx
  refine ⟨p, hp, hrunning, hclosed, hcode, ?_⟩
  rw [Fleet.output, hp]
  rfl

theorem Concluded.exitCode? (h : s.Concluded id code output) :
    s.fleet.exitCode? id = some code := by
  obtain ⟨p, hp, -, -, hcode, -⟩ := h
  rw [Fleet.exitCode?, hp, Option.bind_some, hcode]

theorem Concluded.later (h : t.state.Concluded id code output)
    (hall : t.state.fleet.Each Supervised.Consistent) (hlater : Later machinery t u) :
    u.state.Concluded id code output := by
  obtain ⟨p, hp, hrunning, hclosed, hcode, houtput⟩ := h
  have hx := (hall id p hp).exited (Supervised.isRunning_eq_false_iff.mp hrunning)
  obtain ⟨q, hq, log, rfl, hl, hc⟩ := exited_later hp hx hlater
  refine ⟨_, hq, hrunning, hc.trans hclosed, hcode, ?_⟩
  dsimp only
  rwa [OutputLog.snapshot, hl, ← OutputLog.snapshot]

theorem KeepsRegistry.append (h : KeepsRegistry turns)
    (hlast : turn.2.fleet.registry = turn.1.fleet.registry) : KeepsRegistry (turns ++ [turn]) :=
  fun x hx => (List.mem_append.mp hx).elim (h x) fun hm => List.mem_singleton.mp hm ▸ hlast

theorem Inert.append (h : Inert turns) (k : Inert more) : Inert (turns ++ more) :=
  fun x hx => (List.mem_append.mp hx).elim (h x) (k x)

theorem inert_singleton (hregistry : turn.2.fleet.registry = turn.1.fleet.registry)
    (hsystem : turn.2.system = turn.1.system) : Inert [turn] :=
  fun _ hx => List.mem_singleton.mp hx ▸ ⟨hregistry, hsystem⟩

theorem inert_nil : Inert [] := fun _ hx => absurd hx List.not_mem_nil

theorem Inert.bouts (h : Inert turns) : bouts turns = [] := by
  refine List.filter_eq_nil_iff.mpr fun bout hb => ?_
  obtain ⟨turn, hturn, rfl⟩ := List.mem_map.mp hb
  simp [(h turn hturn).2]

end

end Session

namespace Tree

/-- What the ending of a tree has attempted so far: nothing at all where it has found nobody. -/
def Tried (w : System) (tree : Termination) (found : List ProcessRef)
    (bouts : List (System × System)) : Prop :=
  found = [] ∧ bouts = [] ∨
    Attempted w tree.pid found (tree.termLimit.deadline w.now) bouts

/-- The ending of a tree has succeeded: all that it has found are gone for good. -/
structure Cleared (w : System) (tree : Termination) (found : List ProcessRef)
    (bouts : List (System × System)) (u : System) : Prop where
  tried : Tried w tree found bouts
  gone : ∀ p ∈ found, u.Gone p.serial

theorem Cleared.evolves {w a b : System} {tree : Termination} {found : List ProcessRef}
    {bouts : List (System × System)} (h : Cleared w tree found bouts a) (he : a.Evolves b) :
    Cleared w tree found bouts b :=
  ⟨h.tried, fun p hp => he.gone (h.gone p hp)⟩

end Tree

namespace BoundedRun

open Session Timeline

/-- What has come of a run since the turn in which its limit has run out. Its process is the root of
a tree whose live members were found then. -/
inductive Late (r : BoundedRun) (w : System) (tree : Termination) (found : List ProcessRef)
    (turns : List (Session × Session)) (s : Session) : Task Activity Session.Result → Prop where
  | ending {rest : Termination} : KeepsRegistry turns →
      Course w tree found turns s.system (.pending (.act (.tree rest))) →
      Late r w tree found turns s
        (.pending (.act (.run { r with stopping := some ⟨r.process, some rest⟩ })))
  | reporting : KeepsRegistry turns → Cleared w tree found (bouts turns) s.system →
      Late r w tree found turns s
        (.pending (.act (.run { r with stopping := some ⟨r.process, none⟩ })))
  /-- The process has been stopped, and the failure has its complete output. -/
  | timedOut {time : Instant} {code : Int} {output : String} {before : List (Session × Session)}
      {a b : Session} : turns = before ++ [(a, b)] → KeepsRegistry before → b.now = time →
      b.Concluded r.process code output → (r.tracked = true → ¬ b.fleet.Tracks r.process) →
      Cleared w tree found (bouts turns) s.system → s.Concluded r.process code output →
      Late r w tree found turns s (.ended time (.result (.error (r.tooLong output))))
  | failed {time : Instant} {failure : Failure} : KeepsRegistry turns →
      Course w tree found turns s.system (.ended time (.result (.error failure))) →
      Late r w tree found turns s (.ended time (.result (.error failure)))
  | cancelled {time : Instant} : KeepsRegistry turns → Tried w tree found (bouts turns) →
      Late r w tree found turns s (.ended time .cancelled)

section

variable {r : BoundedRun} {w : System} {tree rest : Termination} {found : List ProcessRef}
  {turns : List (Session × Session)} {a : Session} {f : Fleet} {p : Supervised}

theorem afterStopping_with (r : BoundedRun) (stopping : Option Stopping)
    (x : Fleet × Progress Stopping Stopping.Result) :
    { r with stopping }.afterStopping x = r.afterStopping x := by
  obtain ⟨f, stopping | ⟨failure | ⟨⟩⟩⟩ := x <;> rfl

theorem poll_with (r : BoundedRun) (stopping : Stopping) (f : Fleet) :
    poll { r with stopping := some stopping } f = r.afterStopping (stopping.poll f) :=
  afterStopping_with r (some stopping) (stopping.poll f)

theorem system_afterStopping (r : BoundedRun) (x : Fleet × Progress Stopping Stopping.Result) :
    (r.afterStopping x).1.scene.system = x.1.scene.system := by
  obtain ⟨f, stopping | ⟨failure | ⟨⟩⟩⟩ := x
  · rfl
  · rfl
  · exact system_giveUp r f

/-- The tree has been ended: the end of the process is waited for, or has been reported. -/
theorem late_awaitEnd (hsane : a.fleet.Sane) (hp : a.fleet.process? r.process = some p)
    (hprocesses : f.processes = a.fleet.processes) (hregistry : f.registry = a.fleet.registry)
    (tree? : Option Termination) (hkeeps : KeepsRegistry turns) :
    let going := a.goOnRun (r.afterStopping (Stopping.awaitEnd ⟨r.process, tree?⟩ f))
    Cleared w tree found (bouts (turns ++ [(a, going.1)])) going.1.system →
    Late r w tree found (turns ++ [(a, going.1)]) going.1 (.ofProgress going.1.now going.2) := by
  have hfp : f.process? r.process = some p := by
    rw [Fleet.process?, hprocesses]
    exact hp
  unfold Stopping.awaitEnd
  cases hrunning : f.isRunning r.process with
  | true => exact fun hcleared => .reporting (hkeeps.append hregistry) hcleared
  | false =>
    intro going hcleared
    obtain ⟨code, hcode⟩ := Option.ne_none_iff_exists'.mp
      (exitCode?_ne_none (Option.isSome_iff_exists.mpr ⟨p, hfp⟩) hrunning)
    have hsame : going.1.fleet.processes = f.processes :=
      processes_afterStopping r (f, .done (.ok ()))
    have hconsistent : going.1.fleet.Each Supervised.Consistent := fun id q hq =>
      hsane.consistent id q (by rwa [Fleet.process?, ← hprocesses, ← hsame])
    have hreported : going.1.fleet.exitCode? r.process = some code := by
      rw [Fleet.exitCode?, Fleet.process?, hsame]
      exact hcode
    have hconcluded := concluded_of_exitCode? hconsistent hreported
    refine .timedOut rfl hkeeps rfl hconcluded (fun htracked => ?_) hcleared hconcluded
    have hregistered : f.Registered := hsane.registered.of_process hregistry fun id q hq =>
      ⟨q, by rwa [Fleet.process?, hprocesses], rfl⟩
    change ¬ (r.giveUp f).1.Tracks r.process
    unfold giveUp
    rw [if_pos htracked]
    exact hregistered.not_tracks_unregister hfp _

/-- The ending of the tree goes on: the run does what its course says. -/
theorem late_poll (hsane : a.fleet.Sane) (hp : a.fleet.process? r.process = some p)
    (hprocesses : f.processes = a.fleet.processes) (hregistry : f.registry = a.fleet.registry)
    (hkeeps : KeepsRegistry turns) {scene : Scene}
    {progress : Progress Termination Termination.Result}
    (hpoll : rest.poll f.scene = (scene, progress)) :
    let going := a.goOnRun (r.afterStopping (Stopping.poll ⟨r.process, some rest⟩ f))
    (going.1.system = scene.system → Course w tree found (turns ++ [(a, going.1)]) going.1.system
      (taskOf going.1.now progress)) →
    Late r w tree found (turns ++ [(a, going.1)]) going.1 (.ofProgress going.1.now going.2) := by
  simp only [Stopping.poll, hpoll]
  obtain next | ⟨failure | ⟨⟩⟩ := progress
  · exact fun hcourse => .ending (hkeeps.append hregistry) (hcourse rfl)
  · exact fun hcourse => .failed (hkeeps.append hregistry) (hcourse rfl)
  · intro hcourse
    refine late_awaitEnd (f := { f with scene }) hsane hp hprocesses hregistry (some rest) hkeeps ?_
    have hsystem :=
      system_afterStopping r (Stopping.awaitEnd ⟨r.process, some rest⟩ { f with scene })
    rw [fst_awaitEnd] at hsystem
    cases hcourse hsystem with
    | gone hattempted hgone => exact ⟨.inr hattempted, hgone⟩

/-- What has come of a run since its limit has run out, with the turn in which that has been noticed
first. -/
inductive Stopped (r : BoundedRun) (tree : Termination) (time : Instant) :
    List (Session × Session) → Session → Task Activity Session.Result → Prop where
  | unknown {turn : Session × Session} {s : Session} {failure : Failure} : turn.1.now = time →
      (members turn.1.system tree.pid).1 = .error failure → Inert [turn] →
      Stopped r tree time [turn] s (.ended time (.result (.error failure)))
  | sought {turn : Session × Session} {more : List (Session × Session)} {found : List ProcessRef}
      {s : Session} {task : Task Activity Session.Result} : turn.1.now = time →
      (members turn.1.system tree.pid).1 = .ok found → Told turn.1.system found →
      turn.1.system.Ages s.system → Late r turn.1.system tree found (turn :: more) s task →
      Stopped r tree time (turn :: more) s task

/-- A tree of which nobody is found has been ended at once, or cannot be ended. -/
theorem poll_of_nobody (hvigil : tree.vigil = none) {s : Scene}
    {result : Except Failure (List ProcessRef)} (hm : (members s.system tree.pid).1 = result)
    (hnobody : ∀ q qs, result ≠ .ok (q :: qs)) :
    ∃ scene, tree.poll s = (scene, .done (result.map fun _ => ())) ∧ scene.system = s.system := by
  subst hm
  obtain ⟨hsystem, hdone⟩ := Termination.start_of_none tree hnobody
  refine ⟨(tree.start s).1, ?_, hsystem⟩
  unfold Termination.poll
  rw [hvigil]
  exact Prod.ext rfl hdone

/-- The tree of a process whose end has not been reported is found out and asked to end. -/
theorem stopped_start (hsane : a.fleet.Sane) (hp : a.fleet.process? r.process = some p)
    (hrunning : p.isRunning = true) {notes : List Note} (hnotes : Unechoed notes) :
    let going := a.goOnRun (r.afterStopping (Stopping.start r.process (a.fleet.report notes)))
    Stopped r (Stopping.terminationOf p) a.now [(a, going.1)] going.1
      (.ofProgress going.1.now going.2) := by
  let tree := Stopping.terminationOf p
  let f := a.fleet.report notes
  have hstart : Stopping.start r.process f = Stopping.poll ⟨r.process, some tree⟩ f := by
    unfold Stopping.start
    rw [show f.process? r.process = some p from hp]
    exact if_pos hrunning
  have hcalls : Fleet.Calls False a.fleet (r.afterStopping (Stopping.start r.process f)).1 :=
    calls_afterStopping r (Stopping.calls_start (.report .refl hnotes) r.process)
  have hages := System.ongoing_ages.calls hcalls
  have hevolves := hcalls.evolves
  have hkeeps : KeepsRegistry [] := fun _ hx => absurd hx List.not_mem_nil
  have hvigil : tree.vigil = none := rfl
  rw [hstart] at hages hevolves ⊢
  -- the enumeration fails, or finds nobody, or finds those who are asked to end
  cases hm : (members a.system p.pid).1 with
  | error failure =>
    have hunknown : (members f.scene.system tree.pid).1 = .error failure := hm
    obtain ⟨scene, hpoll, hsystem⟩ := poll_of_nobody hvigil hunknown (by simp)
    have hsystem : scene.system = a.system := hsystem
    simp only [Stopping.poll, hpoll]
    change Stopped r tree a.now [(a, { a with fleet := { f with scene } })] _
      (.ended scene.system.now (.result (.error failure)))
    rw [hsystem]
    exact .unknown rfl hm (inert_singleton rfl hsystem)
  | ok found =>
    cases found with
    | nil =>
      have hnobody : (members f.scene.system tree.pid).1 = .ok [] := hm
      obtain ⟨scene, hpoll, hsystem⟩ := poll_of_nobody hvigil hnobody (by simp)
      have ht : Told a.system [] := ⟨hsane.sound, fun x hx => absurd hx List.not_mem_nil⟩
      simp only [Stopping.poll, hpoll] at hages ⊢
      refine .sought rfl hm ht hages (late_awaitEnd (f := { f with scene }) hsane hp rfl rfl
        (some tree) hkeeps ⟨.inl ⟨rfl, bouts_of_quiet ?_⟩, fun x hx => absurd hx List.not_mem_nil⟩)
      have hsame :=
        system_afterStopping r (Stopping.awaitEnd ⟨r.process, some tree⟩ { f with scene })
      rw [fst_awaitEnd] at hsame
      exact hsame.trans hsystem
    | cons q qs =>
      have hwatch := Watch.of_members hsane.sound hm
      have ht : Told a.system (q :: qs) := ⟨hwatch.sound, hwatch.known⟩
      have hask := Termination.afterAsk_start (t := tree) (s := f.scene) hm (List.cons_ne_nil q qs)
        fun x hx => (ht.known x hx).1
      rcases hpoll : tree.poll f.scene with ⟨scene, progress⟩
      rw [show tree.start f.scene = (scene, progress) from hpoll] at hask
      refine .sought rfl hm ht hages
        (late_poll (f := f) hsane hp rfl rfl hkeeps hpoll fun hsystem => ?_)
      exact .start (a, _) ht hevolves (hsystem ▸ hask) (List.cons_ne_nil q qs)

variable {s t : Session} {task : Task Activity Session.Result}

/-- Whatever else goes on leaves what has come of a run as it is, if it does so with the course of
the tree. -/
theorem Late.goes (h : Late r w tree found turns s task)
    (hconcluded : ∀ code output, s.Concluded r.process code output →
      t.Concluded r.process code output)
    (he : s.system.Evolves t.system)
    (hcourse : ∀ y : Task Activity Session.Result, y.wake Session.wake = task.wake Session.wake →
      Course w tree found turns s.system y → Course w tree found turns t.system y) :
    Late r w tree found turns t task := by
  cases h with
  | ending hkeeps hc => exact .ending hkeeps (hcourse _ rfl hc)
  | reporting hkeeps hcleared => exact .reporting hkeeps (hcleared.evolves he)
  | timedOut hturns hkeeps htime hthen htracked hcleared hnow =>
    exact .timedOut hturns hkeeps htime hthen htracked (hcleared.evolves he) (hconcluded _ _ hnow)
  | failed hkeeps hc => exact .failed hkeeps (hcourse _ rfl hc)
  | cancelled hkeeps htried => exact .cancelled hkeeps htried

theorem Late.cancel {errand : Errand Activity} (h : Late r w tree found turns s (.pending errand))
    (time : Instant) : Late r w tree found turns s (.ended time .cancelled) := by
  cases h with
  | ending hkeeps hc => exact .cancelled hkeeps (.inr hc.attempted)
  | reporting hkeeps hcleared => exact .cancelled hkeeps hcleared.tried

theorem Late.poll {errand : Errand Activity} (h : Late r w tree found turns a (.pending errand))
    (ht : Told w found) (hages : w.Ages a.system) (hsane : a.fleet.Sane)
    (hp : a.fleet.process? r.process = some p) :
    ∃ run, errand = .act (.run run) ∧
      let going := a.goOnRun (run.poll a.fleet)
      Late r w tree found (turns ++ [(a, going.1)]) going.1 (.ofProgress going.1.now going.2) := by
  cases h with
  | @ending rest hkeeps hc =>
    obtain ⟨v, hrest, hstatus⟩ := hc.waits ht
    obtain rfl : rest = { tree with vigil := some v } := by simpa using hrest
    refine ⟨_, rfl, ?_⟩
    have hsequel := Termination.sequel_keepVigil hstatus { tree with vigil := some v } a.fleet.scene
    rcases hpoll :
      Termination.poll { tree with vigil := some v } a.fleet.scene with ⟨scene, progress⟩
    rw [show Termination.keepVigil { tree with vigil := some v } v a.fleet.scene = (scene, progress)
      from hpoll] at hsequel
    rw [poll_with]
    refine late_poll (f := a.fleet) hsane hp rfl rfl hkeeps hpoll fun hsystem => ?_
    have hcalls : Fleet.Calls False a.fleet (r.afterStopping
        (Stopping.poll ⟨r.process, some { tree with vigil := some v }⟩ a.fleet)).1 :=
      calls_afterStopping r (Stopping.calls_poll .refl _)
    exact .goOn (a, _) ht hages hc hcalls.evolves (hsystem ▸ hsequel)
  | reporting hkeeps hcleared =>
    refine ⟨_, rfl, ?_⟩
    rw [poll_with]
    refine late_awaitEnd (f := a.fleet) hsane hp rfl rfl none hkeeps ?_
    have hcalls : Fleet.Calls False a.fleet
        (r.afterStopping (Stopping.awaitEnd ⟨r.process, none⟩ a.fleet)).1 :=
      calls_afterStopping r (Stopping.calls_awaitEnd .refl _)
    have hsame := system_afterStopping r (Stopping.awaitEnd ⟨r.process, none⟩ a.fleet)
    rw [fst_awaitEnd] at hsame
    rw [bouts_append_of_quiet turns hsame]
    exact hcleared.evolves hcalls.evolves

end

end BoundedRun

end Overseer
