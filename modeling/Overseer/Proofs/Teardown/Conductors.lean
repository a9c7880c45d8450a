import Overseer.Proofs.Teardown.EntryOutcomes
import Overseer.Proofs.Teardown.LoneCalls

/-!
# Conductors

A task that conducts some calls lets them go on each time it goes on itself, and does nothing else
to the system (`Conductor`): a teardown conducts the calls for its entries, and the ending of a
single tree one call. While nobody else does anything to the system, each of the calls keeps step
with the call alone, as the clock jumps from moment to moment (`Conductor.ticks`). -/

namespace Overseer

open Overseer.Tree Number World Timeline

namespace Timeline

variable {σ κ α β : Type} {m : Machinery σ κ α β} {t : Timeline σ α β} {moment : Instant}

/-- A timeline has come as far as a moment: what is going to happen next happens later. -/
structure StandsAt (m : Machinery σ κ α β) (t : Timeline σ α β) (moment : Instant) : Prop where
  reached : m.now t.state ≤ moment
  ahead : ∀ next, nextMoment m t = some next → moment < next

instance (m : Machinery σ κ α β) (t : Timeline σ α β) (moment : Instant) :
    Decidable (StandsAt m t moment) :=
  decidable_of_iff (m.now t.state ≤ moment ∧ ∀ next ∈ nextMoment m t, moment < next)
    ⟨fun h => ⟨h.1, h.2⟩, fun h => ⟨h.reached, h.ahead⟩⟩

def Clear (m : Machinery σ κ α β) (t : Timeline σ α β) (moment : Instant) : Prop :=
  ∀ next, nextMoment m t = some next → moment ≤ next

theorem StandsAt.clear (h : StandsAt m t moment) : Clear m t (moment + 1) := h.ahead

theorem Clear.le_change {change : Instant} (h : Clear m t moment)
    (hchange : m.nextChange t.state = some change) : moment ≤ change := by
  obtain ⟨next, hle, hnext⟩ := nextMoment_le (m := m) (t := t) (.inl hchange)
  exact Nat.le_trans (h next hnext) hle

theorem Clear.le_wake {id : TaskId} {task : Task α β} {wake : Instant} (h : Clear m t moment)
    (htask : t.tasks[id]? = some task) (hwake : task.wake m.wake = some wake) : moment ≤ wake := by
  obtain ⟨next, hle, hnext⟩ := nextMoment_le (m := m) (t := t) (.inr ⟨id, task, htask, hwake⟩)
  exact Nat.le_trans (h next hnext) hle

end Timeline

namespace Session

variable {t : Timeline Session Activity Result} {ch : ProcessId → Chronicle} {moment : Instant}

theorem exists_standsAt (h : Faithful t ch) (hle : t.state.now ≤ moment) :
    ∃ count, StandsAt machinery (play machinery t (List.replicate count .tick)) moment := by
  induction hleft : moment - t.state.now using Nat.strong_induction_on generalizing t ch with
  | _ left ih =>
    cases hnext : nextMoment machinery t with
    | none =>
      refine ⟨0, hle, fun next hn => ?_⟩
      have hn : nextMoment machinery t = some next := hn
      rw [hnext] at hn
      cases hn
    | some next =>
      by_cases hover : moment < next
      · refine ⟨0, hle, fun other hn => ?_⟩
        obtain rfl := Option.some.inj (hnext.symm.trans hn)
        exact hover
      · have hlater := h.lt_nextMoment hnext
        have hnow : (move machinery t .tick).state.now = next := by
          refine (machinery_punctual.now_settle _).trans ?_
          rw [stir, hnext]
          rfl
        have hsooner : next ≤ moment := Nat.le_of_not_lt hover
        have hless : moment - next < left :=
          hleft ▸ Nat.sub_lt_sub_left (Nat.lt_of_lt_of_le hlater hsooner) hlater
        obtain ⟨count, hcount⟩ :=
          ih (moment - next) hless (h.move .tick) (hnow ▸ hsooner) (by rw [hnow])
        exact ⟨count + 1, hcount⟩

/-- Whether an activity does nothing but wait for something in the log of a process. -/
def Activity.isWait : Activity → Bool
  | .line _ _ _ => true
  | .ending _ _ => true
  | _ => false

theorem system_poll_of_isWait {a : Activity} (h : a.isWait = true) (s : Session) :
    (poll a s).1.fleet.scene.system = s.fleet.scene.system := by
  cases a with
  | line process report w => rfl
  | ending process report =>
    exact Activity.Quiet.system_poll (a := .ending process report) (s := s) trivial
  | tree tree => cases h
  | stopping stopping => cases h
  | run run => cases h
  | teardown leaving teardown => cases h

theorem leaves_isWait {a : Activity} (h : a.isWait = true) (s : Session) :
    (poll a s).2.Leaves fun rest => rest.isWait = true := by
  cases a with
  | line process report w =>
    refine Progress.leaves_map ?_
    exact (leaves_pollWait w s.now (s.fleet.log process)).imp fun _ _ => rfl
  | ending process report =>
    unfold poll pollEnd
    dsimp only
    split
    · exact .pending rfl
    · exact .done
  | tree tree => cases h
  | stopping stopping => cases h
  | run run => cases h
  | teardown leaving teardown => cases h

def Hushed (t : Timeline Session Activity Result) (id : TaskId) : Prop :=
  ∀ (other : TaskId) a, other ≠ id → t.tasks[other]? = some (.pending (.act a)) → a.isWait = true

variable {id other : TaskId}

theorem Hushed.pollTask (h : Hushed t id) (other : TaskId) :
    Hushed (pollTask machinery t other) id := by
  intro third a hne ha
  rcases act_pollTask ha with ⟨-, hsame⟩ | ⟨b, hb, hpending⟩
  · exact h third a hne hsame
  · have hleaves := leaves_isWait (h third b hne hb) t.state
    have hpending : (poll b t.state).2 = .pending a := hpending
    rw [hpending] at hleaves
    cases hleaves with
    | pending hwait => exact hwait

theorem Hushed.system_pollTask (h : Hushed t id) (hne : other ≠ id) :
    (Timeline.pollTask machinery t other).state.fleet.scene.system =
      t.state.fleet.scene.system := by
  obtain ⟨a, ha, hpoll⟩ | ⟨-, hstate, -⟩ := pollTask_cases (m := machinery) t other
  · rw [hpoll]
    exact system_poll_of_isWait (h other a hne ha) t.state
  · rw [hstate]

variable {calls : List TreeCall} {R : List (Session × Session) → Timeline Session Activity Result →
    Task Activity Result → Prop} {turns : List (Session × Session)} {task : Task Activity Result}

/-- What is known of a task that conducts some calls, and does nothing else to the system. -/
structure Conductor (id : TaskId) (calls : List TreeCall)
    (R : List (Session × Session) → Timeline Session Activity Result →
      Task Activity Result → Prop) :
    Prop where
  kept : Kept machinery id R
  tick : ∀ {turns t task moment}, R turns t task →
    R turns { t with state := machinery.advance t.state moment } task
  conducts : ∀ {turns t task}, R turns t task → TreeCall.Conducts calls turns
  /-- The task has something to do when one of its calls has, unless it has been cancelled. -/
  wakes : ∀ {turns t task c tree wake}, R turns t task → (∀ time, task ≠ .ended time .cancelled) →
    c ∈ TreeCall.callsIn calls turns → c.progress = .pending tree → tree.wake = some wake →
    ∃ sooner ≤ wake, task.wake machinery.wake = some sooner

def Past (t : Timeline Session Activity Result) (task : Task Activity Result) : Prop :=
  ∀ time ending, task = .ended time ending → time ≤ t.state.now ∧ ending ≠ .cancelled

theorem Past.of_le {u : Timeline Session Activity Result} (h : Past t task)
    (hle : t.state.now ≤ u.state.now) : Past u task := fun time ending he =>
  ⟨Nat.le_trans (h time ending he).1 hle, (h time ending he).2⟩

theorem past_ofProgress {u : Timeline Session Activity Result}
    (progress : Progress Activity Result) :
    Past u (.ofProgress u.state.now progress) := by
  intro time ending he
  cases progress with
  | pending rest => cases he
  | done result =>
    obtain ⟨rfl, rfl⟩ := Task.ended.inj he
    exact ⟨Nat.le_refl _, nofun⟩

theorem Past.ne_cancelled (h : Past t task) (time : Instant) : task ≠ .ended time .cancelled :=
  fun he => (h time .cancelled he).2 rfl

theorem past_pollErrand (t : Timeline Session Activity Result) (errand : Errand Activity) :
    Past t (pollErrand machinery t errand).2 := by
  intro time ending he
  refine ⟨Nat.le_of_eq ?_, ?_⟩
  · cases errand with
    | pause moment =>
      unfold pollErrand at he
      dsimp only at he
      split at he
      · exact (Task.ended.inj he).1.symm
      · cases he
    | join other =>
      unfold pollErrand at he
      dsimp only at he
      split at he
      · exact (Task.ended.inj he).1.symm
      · cases he
    | act a =>
      unfold pollErrand at he
      dsimp only at he
      cases hp : (machinery.poll a t.state).2 with
      | pending rest =>
        rw [hp] at he
        cases he
      | done result =>
        rw [hp] at he
        exact (Task.ended.inj he).1.symm.trans (machinery_punctual.now_poll a t.state)
  · rintro rfl
    exact pollErrand_ne_cancelled t errand time he

/-- While everything settles, a call among those that a task conducts keeps step with a call alone,
or will do so when it goes on. -/
structure Accords (id : TaskId) (calls : List TreeCall)
    (R : List (Session × Session) → Timeline Session Activity Result → Task Activity Result → Prop)
    (v : Ward) (entry : Tracked) (y : System × TreeCall) (turns : List (Session × Session))
    (t : Timeline Session Activity Result) (task : Task Activity Result) : Prop where
  conducted : R turns t task
  past : Past t task
  hushed : Hushed t id
  shadows :
    ∃ x, TreeCall.Shadows v entry (TreeCall.callsIn calls turns) t.state.fleet.scene.system x ∧
    TreeCall.Level (x.2.goOn x.1) y

namespace Conductor

variable {v : Ward} {entry : Tracked} {y : System × TreeCall} {d : TreeCall} {u : System}

theorem kept_accords (hR : Conductor id calls R) (hy : TreeCall.Level (y.2.goOn y.1) y) :
    Kept machinery id (Accords id calls R v entry y) where
  deliver {turns t task} h := by
    obtain ⟨hr, hp, hh, x, hx, hl⟩ := h
    have hnow := machinery_punctual.now_deliver t.state
    refine ⟨hR.kept.deliver hr, hp.of_le (Nat.le_of_eq hnow.symm), hh, x, ?_, hl⟩
    exact Fleet.system_readOutputs (P := fun w => TreeCall.Shadows v entry _ w x)
      (fun w c hw => hw.emptyPipe c) hx
  complete {turns t task} h := by
    obtain ⟨hr, hp, hh, x, hx, hl⟩ := h
    have hnow := machinery_punctual.now_complete t.state
    refine ⟨hR.kept.complete hr, hp.of_le (Nat.le_of_eq hnow.symm), hh, x, ?_, hl⟩
    have hsame : (machinery.complete t.state).fleet.scene.system = t.state.fleet.scene.system :=
      Fleet.system_watchEnds t.state.fleet
    rw [hsame]
    exact hx
  other {turns t task other} hne h := by
    obtain ⟨hr, hp, hh, x, hx, hl⟩ := h
    have hnow := machinery_punctual.now_pollTask t other
    refine ⟨hR.kept.other hne hr, hp.of_le (Nat.le_of_eq hnow.symm), hh.pollTask other, x, ?_, hl⟩
    rw [hh.system_pollTask hne]
    exact hx
  poll {turns t errand} htask h := by
    -- the task may go on several times at one moment: after the first time its calls do nothing
    obtain ⟨hr, -, hh, x, hx, hl⟩ := h
    have hnext := hR.kept.poll htask hr
    have hwent := (hR.conducts hnext).last
    have hnow := machinery_punctual.now_pollTask t id
    refine ⟨hnext, (past_pollErrand t errand).of_le (Nat.le_of_eq hnow.symm), hh.pollTask id,
      x.2.goOn x.1, ?_, hl.goOn.trans hy⟩
    rw [TreeCall.callsIn_append]
    have hon := hx.goOnAll
    have hafter : (TreeCall.goOnAll (TreeCall.callsIn calls turns) t.state.fleet.scene.system).1 =
        (Timeline.pollTask machinery t id).state.fleet.scene.system := hwent
    rw [hafter] at hon
    exact hon

end Conductor

structure Accompanies (id : TaskId) (calls : List TreeCall)
    (R : List (Session × Session) → Timeline Session Activity Result → Task Activity Result → Prop)
    (v : Ward) (entry : Tracked) (d : TreeCall) (u : System) (turns : List (Session × Session))
    (t : Timeline Session Activity Result) (task : Task Activity Result) : Prop where
  conducted : R turns t task
  past : Past t task
  hushed : Hushed t id
  begun : u.now ≤ t.state.now
  shadows : TreeCall.Shadows v entry (TreeCall.callsIn calls turns) t.state.fleet.scene.system
    (d.alone u (t.state.now - u.now))

namespace Accompanies

variable {v : Ward} {entry : Tracked} {d : TreeCall} {u : System}

theorem idle (h : Accompanies id calls R v entry d u turns t task)
    (hclear : Clear machinery t moment) :
    ∀ happening ∈ t.state.fleet.scene.system.agenda, moment ≤ happening.1 := by
  have hsorted := h.shadows.tends.toSane.upcoming.1
  cases hagenda : t.state.fleet.scene.system.agenda with
  | nil => exact List.forall_mem_nil _
  | cons first agenda =>
    rw [hagenda] at hsorted
    obtain ⟨hfirst, -⟩ := List.pairwise_cons.mp hsorted
    have hchange : ∃ change ≤ first.1, machinery.nextChange t.state = some change := by
      change ∃ change ≤ first.1, t.state.fleet.nextChange = some change
      rw [Fleet.nextChange, ← Array.foldl_toList]
      refine Instant.foldl_earlier_le (.inl ?_)
      rw [System.nextChange, hagenda]
      rfl
    obtain ⟨change, hle, hchange⟩ := hchange
    have hhead : moment ≤ first.1 := Nat.le_trans (hclear.le_change hchange) hle
    exact List.forall_mem_cons.mpr
      ⟨hhead, fun happening hm => Nat.le_trans hhead (hfirst happening hm)⟩

theorem rests (h : Accompanies id calls R v entry d u turns t task) (hR : Conductor id calls R)
    (htask : t.tasks[id]? = some task) (hclear : Clear machinery t moment) :
    ∀ c ∈ TreeCall.callsIn calls turns, c.RestsUntil moment := by
  intro c hc tree htree wake hwake
  obtain ⟨sooner, hle, hsooner⟩ := hR.wakes h.conducted h.past.ne_cancelled hc htree hwake
  exact Nat.le_trans (hclear.le_wake htask hsooner) hle

/-- At a moment at which the session stands, the system looks as it does with the call alone. -/
theorem standing (h : Accompanies id calls R v entry d u turns t task) (hR : Conductor id calls R)
    (htask : t.tasks[id]? = some task) (hstands : StandsAt machinery t moment) :
    TreeCall.Shadows v entry (TreeCall.callsIn calls turns)
      { t.state.fleet.scene.system with now := moment } (d.alone u (moment - u.now)) := by
  have hbegun := h.begun
  have hreached : t.state.now ≤ moment := hstands.reached
  obtain ⟨k, rfl⟩ := Nat.exists_eq_add_of_le hreached
  have hglide := h.shadows.glide (h.idle hstands.clear) (h.rests hR htask hstands.clear)
    (Nat.lt_succ_self (t.state.now + k))
  have hlength : t.state.now - u.now + k = t.state.now + k - u.now :=
    (Nat.sub_add_comm hbegun).symm
  rw [hlength] at hglide
  exact hglide

end Accompanies

namespace Conductor

variable {v : Ward} {entry : Tracked} {d : TreeCall} {u : System}

/-- When everything has settled, the call keeps step with the call alone. -/
theorem settle (hR : Conductor id calls R) (hbegun : u.now ≤ t.state.now)
    (h : Holding (Accords id calls R v entry (d.alone u (t.state.now - u.now))) id turns t) :
    Holding (Accompanies id calls R v entry d u) id (turns ++ turnsOfSettle machinery id t)
      (Timeline.settle machinery t) := by
  obtain ⟨task, htask, hr, hp, hh, x, hx, hl⟩ :=
    (hR.kept_accords (TreeCall.level_alone d u _)).settle h
  have hsame : (Timeline.settle machinery t).state.now = t.state.now :=
    machinery_punctual.now_settle t
  have htimely := machinery_punctual.timely_settle t id task htask
  -- what the task has to do next is to be done later, so the call would do nothing now
  have hrests : ∀ c ∈ TreeCall.callsIn calls (turns ++ turnsOfSettle machinery id t),
      c.RestsUntil ((Timeline.settle machinery t).state.now + 1) := by
    intro c hc tree htree wake hwake
    obtain ⟨sooner, hle, hsooner⟩ := hR.wakes hr hp.ne_cancelled hc htree hwake
    exact Nat.le_trans (htimely sooner hsooner) hle
  have hnow : x.1.now < (Timeline.settle machinery t).state.now + 1 :=
    Nat.lt_succ_of_le (Nat.le_of_eq hx.now_eq.symm)
  have hstill := TreeCall.goOn_of_rests hx.inside (hx.rests hrests) hnow
  refine ⟨task, htask, hr, hp, hh, hsame ▸ hbegun, ?_⟩
  rw [hsame]
  exact hx.level (hstill.symm.trans hl)

theorem move_tick (hR : Conductor id calls R) (hf : Faithful t ch)
    (h : Holding (Accompanies id calls R v entry d u) id turns t) :
    Holding (Accompanies id calls R v entry d u) id
      (turns ++ turnsOfSettle machinery id (stir machinery t .tick)) (move machinery t .tick) := by
  obtain ⟨task, htask, ha⟩ := h
  have hbegun := ha.begun
  unfold move
  cases hnext : nextMoment machinery t with
  | none =>
    have hstir : stir machinery t .tick = t := by rw [stir, hnext]
    rw [hstir]
    exact hR.settle hbegun ⟨task, htask, ha.conducted, ha.past, ha.hushed, _, ha.shadows,
      TreeCall.level_alone d u _⟩
  | some next =>
    have hstir : stir machinery t .tick = { t with state := machinery.advance t.state next } := by
      rw [stir, hnext]
    have hclear : Clear machinery t next := fun other hn =>
      Nat.le_of_eq (Option.some.inj (hnext.symm.trans hn))
    have hlater : t.state.now < next := hf.lt_nextMoment hnext
    obtain ⟨x, hx, hl⟩ := ha.shadows.arrive (ha.idle hclear) (ha.rests hR htask hclear) hlater
    have hlength : t.state.now - u.now + (next - t.state.now) = next - u.now := by
      rw [Nat.add_comm]
      exact Nat.sub_add_sub_cancel (Nat.le_of_lt hlater) hbegun
    have hl : TreeCall.Level (x.2.goOn x.1)
        (d.alone u (t.state.now - u.now + (next - t.state.now))) := hl
    rw [hlength] at hl
    rw [hstir]
    exact hR.settle (t := { t with state := machinery.advance t.state next })
      (Nat.le_trans hbegun (Nat.le_of_lt hlater))
      ⟨task, htask, hR.tick ha.conducted, ha.past.of_le (Nat.le_of_lt hlater), ha.hushed, x, hx, hl⟩

theorem ticks (hR : Conductor id calls R) (hf : Faithful t ch)
    (h : Holding (Accompanies id calls R v entry d u) id turns t) (count : Nat) :
    Holding (Accompanies id calls R v entry d u) id
      (turns ++ turnsOfPlay machinery id t (List.replicate count .tick))
      (play machinery t (List.replicate count .tick)) := by
  induction count generalizing t turns ch with
  | zero => simpa [turnsOfPlay, play] using h
  | succ count ih =>
    rw [List.replicate_succ, turnsOfPlay, ← List.append_assoc]
    exact ih (hf.move .tick) (hR.move_tick hf h)

/-- A command has begun a task that conducts some calls, among them one for an entry. From then on
the call keeps step with the call that begins alone at that moment. -/
theorem step {step : Step Command} {command : Command} (hf : Faithful t ch)
    (hwaits : ∀ a ∈ t.activities, a.isWait = true) (hstep : step.command? = some command)
    (hR : Conductor t.tasks.size calls R)
    (hlaunch : Holding R t.tasks.size [(t.state, (launch machinery t step).state)]
      (launch machinery t step))
    (hshadows : TreeCall.Shadows v entry (TreeCall.goOnAll calls t.state.fleet.scene.system).2
      (TreeCall.goOnAll calls t.state.fleet.scene.system).1 (d.goOn t.state.fleet.scene.system))
    (count : Nat) :
    Holding (Accompanies t.tasks.size calls R v entry d t.state.fleet.scene.system) t.tasks.size
      (turnsOfStep machinery t step (List.replicate count .tick))
      (play machinery (move machinery t (.begin step)) (List.replicate count .tick)) := by
  obtain ⟨task, htask, hr⟩ := hlaunch
  obtain ⟨hstate, hown, hacts⟩ := launch_command (m := machinery) hstep t
  have hnow : (launch machinery t step).state.now = t.state.now :=
    machinery_punctual.now_launch t step
  -- whoever else is under way only waits, and does nothing to the system
  have hhushed : Hushed (launch machinery t step) t.tasks.size := by
    intro other a hne ha
    obtain ha | hsame := hacts other a ha
    · refine hwaits a (List.mem_filterMap.mpr ⟨.pending (.act a), ?_, rfl⟩)
      exact List.mem_iff_getElem?.mpr ⟨other, by simpa using ha⟩
    · exact absurd hsame hne
  have hpast : Past (launch machinery t step) task :=
    Option.some.inj (hown.symm.trans htask) ▸ hstate ▸ past_ofProgress _
  have hbegun : (TreeCall.goOnAll calls t.state.fleet.scene.system).1 =
      (launch machinery t step).state.fleet.scene.system := (hR.conducts hr).1
  rw [hbegun] at hshadows
  have hzero : (launch machinery t step).state.now - t.state.fleet.scene.system.now = 0 := by
    rw [hnow]
    exact Nat.sub_self _
  have hmoved : Holding (Accompanies t.tasks.size calls R v entry d t.state.fleet.scene.system)
      t.tasks.size ([(t.state, (launch machinery t step).state)] ++
        turnsOfSettle machinery t.tasks.size (launch machinery t step))
      (move machinery t (.begin step)) := by
    refine hR.settle (Nat.le_of_eq hnow.symm) ⟨task, htask, hr, hpast, hhushed, _, hshadows, ?_⟩
    rw [hzero]
    exact TreeCall.level_alone d _ 0
  exact hR.ticks (hf.move (.begin step)) hmoved count

end Conductor

theorem conductor_teardown (begin : Timeline Session Activity Result) (id : TaskId) :
    Conductor id (begin.state.freshCalls begin.state.fleet.registry.entries)
      (Proceeding begin) where
  kept := (upheld_conducted begin id _).kept machinery_punctual
  tick h :=
    ⟨h.1, h.2.later.advance _, h.2.conducts, h.2.registry, h.2.stands.later (.advance _ .refl)⟩
  conducts h := h.2.conducts
  wakes {turns t task c tree wake} h hn hc hp hwake := by
    have hstands := h.2.stands
    generalize turns.flatMap errorsIn = errors at hstands
    cases hstands with
    | cancelled => exact absurd rfl (hn _)
    | answered hover =>
      rcases hover c hc with ⟨hdone, -⟩ | ⟨failure, hdone⟩
      · cases hp.symm.trans hdone
      · cases hp.symm.trans hdone
    | @going leaving entries hserve =>
      obtain ⟨⟨entry, sofar⟩, he, -, -, hmatches⟩ := TreeCall.exists_served hserve hc
      cases hmatches with
      | waiting hdone => cases hp.symm.trans hdone
      | reported hdone => cases hp.symm.trans hdone
      | failed hdone => cases hp.symm.trans hdone
      | ending hsame =>
        obtain rfl := Progress.pending.inj (hp.symm.trans hsame)
        exact Instant.foldl_earlier_le (.inr ⟨_, he, hwake⟩)

/-- What has come of a task that ends a single tree, by what its call has come to. -/
structure Pursuing (d : TreeCall) (turns : List (Session × Session))
    (_t : Timeline Session Activity Result) (task : Task Activity Result) : Prop where
  conducts : TreeCall.Conducts [d] turns
  stands : ∃ c time, TreeCall.callsIn [d] turns = [c] ∧
    task = .ofProgress time (c.progress.map .tree (·.map fun _ => .nothing))

theorem pollTree_eq {c : TreeCall} {tree : Termination} (h : c.progress = .pending tree)
    (s : Session) :
    (pollTree tree s).1.fleet.scene.system = (c.goOn s.fleet.scene.system).1 ∧
      (pollTree tree s).2 = (c.goOn s.fleet.scene.system).2.progress.map .tree
        (·.map fun _ => .nothing) := by
  obtain ⟨hsystem, hprogress⟩ := Termination.poll_congr (s := s.fleet.scene)
    (u := { system := s.fleet.scene.system }) rfl tree
  rw [TreeCall.goOn_pending h]
  exact ⟨hsystem, congrArg (·.map Activity.tree (·.map fun _ => Answer.nothing)) hprogress⟩

theorem conductor_tree (d : TreeCall) (id : TaskId) : Conductor id [d] (Pursuing d) where
  kept :=
    { deliver := fun h => ⟨h.conducts, h.stands⟩
      complete := fun h => ⟨h.conducts, h.stands⟩
      other := fun _ h => ⟨h.conducts, h.stands⟩
      poll := by
        intro turns t errand htask h
        obtain ⟨hconducts, c, time, hcalls, hstands⟩ := h
        cases hp : c.progress with
        | done result =>
          rw [hp] at hstands
          cases hstands
        | pending tree =>
          rw [hp] at hstands
          obtain rfl : errand = .act (.tree tree) := Task.pending.inj hstands
          obtain ⟨hsystem, hprogress⟩ := pollTree_eq hp t.state
          have hstate := (pollTask_pending (m := machinery) htask).1
          refine ⟨hconducts.append ?_, (c.goOn t.state.fleet.scene.system).2,
            machinery.now (pollTree tree t.state).1, ?_, ?_⟩
          · rw [hcalls, hstate]
            exact hsystem.symm
          · rw [TreeCall.callsIn_append, hcalls]
            rfl
          · exact congrArg (Task.ofProgress _) hprogress }
  tick h := ⟨h.conducts, h.stands⟩
  conducts h := h.conducts
  wakes {turns t task c tree wake} h hn hc hp hwake := by
    obtain ⟨-, e, time, hcalls, rfl⟩ := h
    obtain rfl := List.mem_singleton.mp (hcalls ▸ hc)
    rw [hp]
    exact ⟨wake, Nat.le_refl _, hwake⟩

theorem pursuing_launch (t : Timeline Session Activity Result) (termLimit killLimit : Seconds)
    (entry : Tracked) :
    let step := Step.act (Command.killTree entry.pid (some termLimit) (some killLimit))
    Holding (Pursuing (TreeCall.fresh termLimit killLimit entry)) t.tasks.size
      [(t.state, (launch machinery t step).state)] (launch machinery t step) := by
  intro step
  have hstep : step.command? = some (.killTree entry.pid (some termLimit) (some killLimit)) := rfl
  obtain ⟨hstate, htask, -⟩ := launch_command (m := machinery) hstep t
  obtain ⟨hsystem, hprogress⟩ :=
    pollTree_eq (c := TreeCall.fresh termLimit killLimit entry) rfl t.state
  refine ⟨_, htask, ⟨?_, trivial⟩, _, _, rfl, congrArg (Task.ofProgress _) hprogress⟩
  rw [hstate]
  exact hsystem.symm

end Session

end Overseer
