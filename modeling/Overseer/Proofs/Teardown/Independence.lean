import Mathlib.Data.List.Pairwise
import Overseer.Proofs.Teardown.Conductors

/-!
# Trees apart

A teardown treats each of its trees as if there were no others, if nobody is kin of two of them
(`Session.teardown_treats_trees_alone`): the signals that are attempted on a tree and the times at
which they are, what becomes of its processes and when, and whether its ending succeeds are as they
would have been if the tree alone had been ended with the same limits at the same moment. The
teardown itself is over as soon as it is over with the last of its trees.
-/

namespace Overseer

open Overseer.Tree Number World Timeline

namespace Tree

/-- What becomes of a process is up to the call that ends the tree of a pid: it is kin of the pid,
or it is still to be born into the group. -/
def Concerns (w : System) (pid : Int) (serial : Serial) : Prop :=
  (∃ x ∈ w.table, x.serial = serial ∧ Kin w pid x) ∨
    w.windows = false ∧
      ∃ entry ∈ w.agenda, entry.2.bears (fun x => x.serial == serial && x.pgid == pid) = true

instance (w : System) (pid : Int) (serial : Serial) : Decidable (Concerns w pid serial) :=
  inferInstanceAs (Decidable (_ ∨ _))

def kinPids (w : System) (pid : Int) : List Int :=
  (w.table.filter fun x => Kin w pid x).map (·.pid)

def Apart (w : System) (entries : List Tracked) : Prop :=
  entries.Pairwise fun entry other => ∀ x ∈ w.table, ¬ (Kin w entry.pid x ∧ Kin w other.pid x)

instance (w : System) (entries : List Tracked) : Decidable (Apart w entries) :=
  inferInstanceAs (Decidable (entries.Pairwise _))

def wardOf (w : System) (entries : List Tracked) (pid : Int) : Ward where
  mine serial := decide (Concerns w pid serial)
  pid := pid
  pids := kinPids w pid
  rivals := (entries.map (·.pid)).filter (· != pid)

variable {w : System} {pid : Int} {x : Process} {entries xs ys : List Tracked}
  {entry other : Tracked}
  {due : Instant}

theorem concerns_iff_kin (hs : w.Sound) (hx : x ∈ w.table) :
    Concerns w pid x.serial ↔ Kin w pid x := by
  constructor
  · rintro (⟨y, hy, hserial, hkin⟩ | ⟨-, ⟨due, happening⟩, hy, hbears⟩)
    · exact hs.eq_of_serial hy hx hserial ▸ hkin
    · cases happening with
      | birth y =>
        have hserial := (Bool.and_eq_true_iff.mp hbears).1
        exact absurd (eq_of_beq hserial) (hs.ne_awaited hx hy)
      | death serial child signal => cases hbears
      | program c event => cases hbears
  · exact fun hkin => .inl ⟨x, hx, rfl, hkin⟩

theorem concerns_iff_pgid (hs : w.Sound) (hposix : w.windows = false)
    (hx : (due, .birth x) ∈ w.agenda) : Concerns w pid x.serial ↔ x.pgid = pid := by
  constructor
  · rintro (⟨y, hy, hserial, -⟩ | ⟨-, ⟨due, happening⟩, hy, hbears⟩)
    · exact absurd hserial.symm (hs.ne_awaited hy hx)
    · cases happening with
      | birth y =>
        obtain ⟨hserial, hpgid⟩ := Bool.and_eq_true_iff.mp hbears
        exact hs.awaited_eq hy hx (eq_of_beq hserial) ▸ eq_of_beq hpgid
      | death serial child signal => cases hbears
      | program c event => cases hbears
  · rintro rfl
    exact .inr ⟨hposix, _, hx, by simp [Happening.bears]⟩

theorem Apart.not_kin (h : Apart w entries) (he : entry ∈ entries) (ho : other ∈ entries)
    (hne : other.pid ≠ entry.pid) (hx : x ∈ w.table) (hkin : Kin w other.pid x) :
    ¬ Kin w entry.pid x := by
  have hsymm : Std.Symm fun (entry other : Tracked) =>
      ∀ x ∈ w.table, ¬ (Kin w entry.pid x ∧ Kin w other.pid x) :=
    ⟨fun _ _ hnone x hx hboth => hnone x hx hboth.symm⟩
  have hpair := List.Pairwise.forall h he ho fun hsame => hne (congrArg Tracked.pid hsame.symm)
  exact fun hown => hpair x hx ⟨hown, hkin⟩

theorem spans_cares (w : System) (entries : List Tracked) (pid : Int) :
    Spans (wardOf w entries pid).Cares w pid := fun x hx hkin =>
  decide_eq_true (.inl ⟨x, hx, rfl, hkin⟩)

theorem Apart.spans_shuns (h : Apart w entries) (hs : w.Sound) (hp : w.table.ByPid)
    (he : entry ∈ entries) (ho : other ∈ entries) (hne : other.pid ≠ entry.pid) :
    Spans (wardOf w entries entry.pid).Shuns w other.pid := by
  intro x hx hkin
  have hnot := h.not_kin he ho hne hx hkin
  refine ⟨decide_eq_false fun hc => hnot ((concerns_iff_kin hs hx).mp hc), fun hmem => ?_⟩
  obtain ⟨y, hy, hpid⟩ := List.mem_map.mp hmem
  obtain ⟨hyt, hykin⟩ := List.mem_filter.mp hy
  exact hnot (hp.eq_of_pid hyt hx hpid ▸ of_decide_eq_true hykin)

theorem mem_rivals {pgid : Int} (h : pgid ∈ (wardOf w entries pid).rivals) :
    ∃ other ∈ entries, other.pid = pgid ∧ pgid ≠ pid := by
  obtain ⟨hmem, hne⟩ := List.mem_filter.mp h
  obtain ⟨other, ho, hpid⟩ := List.mem_map.mp hmem
  exact ⟨other, ho, hpid, by simpa using hne⟩

/-- Whoever is in a group that is signalled is the concern of the call that signals it, and of no
other one. -/
theorem Apart.tends (h : Apart w entries) (hsane : w.Sane) (hs : w.Sound) (he : entry ∈ entries) :
    (wardOf w entries entry.pid).Tends w where
  toSane := hsane
  reach hposix := by
    refine ⟨fun x hx => ⟨fun hpgid => ?_, fun hrival => ?_⟩, ?_⟩
    · exact spans_cares w entries entry.pid x hx (.inl (.inl ⟨hposix, hpgid⟩))
    · obtain ⟨other, ho, hpid, hne⟩ := mem_rivals hrival
      have hkin : Kin w other.pid x := .inl (.inl ⟨hposix, hpid.symm⟩)
      exact (h.spans_shuns hs hsane.byPid he ho (hpid ▸ hne) x hx hkin).1
    · rintro ⟨due, happening⟩ hmem
      cases happening with
      | death serial child signal => trivial
      | program c event => trivial
      | birth x =>
        have hiff : Concerns w entry.pid x.serial ↔ x.pgid = entry.pid :=
          concerns_iff_pgid hs hposix hmem
        refine ⟨fun hpgid => decide_eq_true (hiff.mpr hpgid), fun hrival => ?_⟩
        obtain ⟨other, -, -, hne⟩ := mem_rivals hrival
        exact decide_eq_false fun hc => hne (hiff.mp hc)

/-- When some calls begin, one of them keeps step with the call that begins alone. -/
theorem Apart.shadows_fresh (h : Apart w entries) (hsane : w.Sane) (hs : w.Sound)
    (termLimit killLimit : Seconds) (he : entry ∈ entries)
    (hothers : ∀ other ∈ xs ++ ys, other ∈ entries ∧ other.pid ≠ entry.pid) :
    let calls := (xs ++ entry :: ys).map (TreeCall.fresh termLimit killLimit)
    TreeCall.Shadows (wardOf w entries entry.pid) entry (TreeCall.goOnAll calls w).2
      (TreeCall.goOnAll calls w).1 ((TreeCall.fresh termLimit killLimit entry).goOn w) := by
  intro calls
  have hinside : (TreeCall.fresh termLimit killLimit entry).InsideAt
      (wardOf w entries entry.pid) w :=
    .pending ⟨rfl, .inr ⟨rfl, hs, spans_cares w entries entry.pid⟩⟩
  have houtside : ∀ c ∈ xs.map (TreeCall.fresh termLimit killLimit) ++
      ys.map (TreeCall.fresh termLimit killLimit), c.OutsideAt (wardOf w entries entry.pid) w := by
    intro c hc
    rw [← List.map_append] at hc
    obtain ⟨other, ho, rfl⟩ := List.mem_map.mp hc
    obtain ⟨hmem, hne⟩ := hothers other ho
    have hrival : other.pid ∈ (wardOf w entries entry.pid).rivals :=
      List.mem_filter.mpr ⟨List.mem_map_of_mem hmem, by simpa using hne⟩
    exact .pending ⟨⟨hrival, hne⟩, .inr ⟨rfl, hs, h.spans_shuns hs hsane.byPid he hmem hne⟩⟩
  have htends := h.tends hsane hs he
  have hshadows := TreeCall.shadows_goOnAll rfl htends htends rfl hinside hinside houtside
  have hcalls : calls = xs.map (TreeCall.fresh termLimit killLimit) ++
      TreeCall.fresh termLimit killLimit entry :: ys.map (TreeCall.fresh termLimit killLimit) := by
    simp [calls]
  rw [hcalls]
  exact hshadows

/-- The attempts in one system to signal the group of a pid, or somebody who has been kin of it in
another one. -/
def attemptsOn (w : System) (pid : Int) (after : System) : List (Instant × Attempt) :=
  after.signals.toList.filter fun entry =>
    match entry.2 with
    | .group pgid _ => pgid == pid
    | .single q _ => (kinPids w pid).contains q

structure SameFate (w : System) (pid : Int) (a b : System) : Prop where
  attempts : attemptsOn w pid a = attemptsOn w pid b
  processes : ∀ serial, Concerns w pid serial → a.table.deref? serial = b.table.deref? serial

theorem sameFate_of_view {a b : System}
    (h : (wardOf w entries pid).view a = (wardOf w entries pid).view b) :
    SameFate w pid a b where
  attempts := by
    have hattempts := congrArg View.attempts h
    have haims : ∀ after : System,
        ((wardOf w entries pid).view after).attempts = attemptsOn w pid after := by
      intro after
      refine List.filter_congr fun entry _ => ?_
      rcases entry with ⟨time, _ | _⟩ <;> rfl
    rwa [haims, haims] at hattempts
  processes serial hc := Ward.deref?_eq_of_view h (decide_eq_true hc)

end Tree

namespace Session

variable {s : Session} {w : System} {others : List Birth}
  {before : Timeline Session Activity Result}
  {step : Step Command} {command : Command} {entry : Tracked} {moment : Instant}

/-- A session in which nobody is about to do anything to the system, and whose trees are apart. -/
structure Poised (before : Timeline Session Activity Result) : Prop where
  faithful : ∃ ch, Faithful before ch
  sane : before.state.fleet.scene.system.Sane
  sound : before.state.fleet.scene.system.Sound
  registered : before.state.fleet.Registered
  waits : ∀ a ∈ before.activities, a.isWait = true
  apart : Apart before.state.fleet.scene.system before.state.fleet.registry.entries

theorem Poised.of_play {first : List (Move Command)}
    (hwaits : ∀ a ∈ (play machinery { state := s.afresh w others } first).activities,
      a.isWait = true)
    (hapart : Apart (play machinery { state := s.afresh w others } first).state.fleet.scene.system
      (play machinery { state := s.afresh w others } first).state.fleet.registry.entries) :
    Poised (play machinery { state := s.afresh w others } first) := by
  have hlater := (Later.refl (m := machinery) (t := { state := s.afresh w others })).play first
  have hfaithful := (faithful_afresh s w others).play first
  exact ⟨⟨_, hfaithful⟩, ⟨byPid_later hlater, hfaithful.orderly.upcoming, linked_later hlater⟩,
    sound_later hlater, registered_later hlater, hwaits, hapart⟩

theorem Poised.split (h : Poised before) (he : entry ∈ before.state.fleet.registry.entries) :
    ∃ xs ys, before.state.fleet.registry.entries = xs ++ entry :: ys ∧
      ∀ other ∈ xs ++ ys, other ∈ before.state.fleet.registry.entries ∧ other.pid ≠ entry.pid := by
  obtain ⟨xs, ys, hsplit⟩ := List.append_of_mem he
  refine ⟨xs, ys, hsplit, fun other ho => ?_⟩
  have hunique : (xs ++ entry :: ys).map (·.pid) |>.Nodup := hsplit ▸ h.registered.unique
  rw [List.map_append, List.map_cons, List.nodup_middle, List.nodup_cons, ← List.map_append]
    at hunique
  refine ⟨?_, fun hsame => hunique.1 (List.mem_map.mpr ⟨other, ho, hsame⟩)⟩
  rw [hsplit]
  rcases List.mem_append.mp ho with ho | ho
  · exact List.mem_append_left _ ho
  · exact List.mem_append_right _ (List.mem_cons_of_mem entry ho)

def callOf (s : Session) (entry : Tracked) : TreeCall := .fresh s.termLimit s.killLimit entry

def endTree (s : Session) (entry : Tracked) : Step Command :=
  .act (.killTree entry.pid (some s.termLimit) (some s.killLimit))

/-- In a teardown the call for an entry keeps step with the call alone. -/
theorem Poised.accompanies_teardown (h : Poised before)
    (hbefore : Later machinery { state := s.afresh w others } before)
    (hcommand : command = .teardown ∨ command = .leave) (hstep : step.command? = some command)
    (he : entry ∈ before.state.fleet.registry.entries) (count : Nat) :
    let entries := before.state.fleet.registry.entries
    let world := before.state.fleet.scene.system
    Holding (Accompanies before.tasks.size (before.state.freshCalls entries) (Proceeding before)
        (wardOf world entries entry.pid) entry (before.state.callOf entry) world)
      before.tasks.size (turnsOfStep machinery before step (List.replicate count .tick))
      (play machinery (move machinery before (.begin step)) (List.replicate count .tick)) := by
  intro entries world
  obtain ⟨ch, hf⟩ := h.faithful
  obtain ⟨xs, ys, hsplit, hothers⟩ := h.split he
  have hshadows :=
    h.apart.shadows_fresh h.sane h.sound before.state.termLimit before.state.killLimit
    he hothers
  rw [← hsplit] at hshadows
  exact (conductor_teardown before before.tasks.size).step hf h.waits hstep
    (proceeding_launch hbefore hcommand hstep) hshadows count

theorem Poised.accompanies_tree (h : Poised before)
    (he : entry ∈ before.state.fleet.registry.entries) (count : Nat) :
    let entries := before.state.fleet.registry.entries
    let world := before.state.fleet.scene.system
    let step := before.state.endTree entry
    Holding (Accompanies before.tasks.size [before.state.callOf entry]
        (Pursuing (before.state.callOf entry)) (wardOf world entries entry.pid) entry
        (before.state.callOf entry) world)
      before.tasks.size (turnsOfStep machinery before step (List.replicate count .tick))
      (play machinery (move machinery before (.begin step)) (List.replicate count .tick)) := by
  intro entries world step
  obtain ⟨ch, hf⟩ := h.faithful
  have hnobody : ∀ other ∈ ([] ++ [] : List Tracked), other ∈ entries ∧ other.pid ≠ entry.pid :=
    List.forall_mem_nil _
  have hshadows := h.apart.shadows_fresh h.sane h.sound before.state.termLimit
    before.state.killLimit he hnobody
  have hstep : step.command? = some (.killTree entry.pid (some before.state.termLimit)
    (some before.state.killLimit)) := rfl
  exact (conductor_tree (before.state.callOf entry) before.tasks.size).step hf h.waits hstep
    (pursuing_launch before before.state.termLimit before.state.killLimit entry) hshadows count

def EndedWith (t : Timeline Session Activity Result) (id : TaskId) (moment : Instant)
    (result : Termination.Result) : Prop :=
  ∃ time ≤ moment, t.tasks[id]? = some (.ended time (.result (result.map fun _ => .nothing)))

variable {id : TaskId} {d c : TreeCall} {turns : List (Session × Session)}
  {t u : Timeline Session Activity Result} {task : Task Activity Result}
    {result : Termination.Result}
  {calls : List TreeCall} {R : List (Session × Session) → Timeline Session Activity Result →
    Task Activity Result → Prop} {v : Ward} {world : System}

theorem endedWith_iff (h : Pursuing d turns t task) (hpast : Past t task)
    (htask : t.tasks[id]? = some task) (hreached : t.state.now ≤ moment)
    (hc : c ∈ TreeCall.callsIn [d] turns) :
    EndedWith t id moment result ↔ c.progress = .done result := by
  obtain ⟨-, e, time, hcalls, rfl⟩ := h
  obtain rfl := List.mem_singleton.mp (hcalls ▸ hc)
  constructor
  · rintro ⟨other, -, hended⟩
    have hsame := Option.some.inj (htask.symm.trans hended)
    cases hp : c.progress with
    | pending tree =>
      rw [hp] at hsame
      cases hsame
    | done outcome =>
      rw [hp] at hsame
      have hmap := Ending.result.inj (Task.ended.inj hsame).2
      rcases outcome with failure | ⟨⟩
      · rcases result with other | ⟨⟩
        · rw [Except.error.inj hmap]
        · cases hmap
      · rcases result with other | ⟨⟩
        · cases hmap
        · rfl
  · intro hp
    rw [hp] at htask hpast
    exact ⟨time, Nat.le_trans (hpast _ _ rfl).1 hreached, htask⟩

/-- Two sessions in which the same call keeps step with the same call alone have come as far as the
same moment: the tree has been treated in the same way. -/
theorem sameFate_of_standing {entries : List Tracked} {other : Task Activity Result}
    {turns' : List (Session × Session)}
    (hR : Conductor id calls R)
    (ht : Accompanies id calls R (wardOf world entries entry.pid) entry d world turns t task)
    (hu : Accompanies id [d] (Pursuing d) (wardOf world entries entry.pid) entry d world
      turns' u other)
    (htask : t.tasks[id]? = some task) (hother : u.tasks[id]? = some other)
    (htstands : StandsAt machinery t moment) (hustands : StandsAt machinery u moment) :
    SameFate world entry.pid t.state.fleet.scene.system u.state.fleet.scene.system ∧
      ∃ c ∈ TreeCall.callsIn calls turns, c.entry = entry ∧
        ∀ result, c.progress = .done result ↔ EndedWith u id moment result := by
  have hleft := ht.standing hR htask htstands
  have hright := hu.standing (conductor_tree d id) hother hustands
  obtain ⟨fates, hprocesses⟩ := sameFate_of_view (hleft.view.trans hright.view.symm)
  obtain ⟨xs, c, ys, hcalls, hentry, hp, -⟩ := hleft.among
  obtain ⟨xs', c', ys', hcalls', -, hp', -⟩ := hright.among
  refine ⟨⟨fates, hprocesses⟩, c, hcalls ▸ by simp, hentry, fun result => ?_⟩
  have hmem : c' ∈ TreeCall.callsIn [d] turns' := hcalls' ▸ by simp
  rw [hp.trans hp'.symm]
  exact (endedWith_iff hu.conducted hu.past hother hustands.reached hmem).symm

/-- When nothing is left to do, a teardown has ended if and only if all is over with its calls. -/
theorem answered_iff (h : Proceeding before turns t task) (hpast : Past t task)
    (htask : t.tasks[id]? = some task) (hstill : Still machinery t)
    (hreached : t.state.now ≤ moment) :
    (∃ time ≤ moment, ∃ answer, task = .ended time (.result (.ok answer))) ↔
      ∀ c ∈ TreeCall.callsIn (before.state.freshCalls before.state.fleet.registry.entries) turns,
        c.Over t.state.fleet := by
  have hstands := h.2.stands
  generalize turns.flatMap errorsIn = errors at hstands
  cases hstands with
  | cancelled => exact absurd rfl (hpast.ne_cancelled _)
  | answered hover =>
    exact iff_of_true ⟨_, Nat.le_trans (hpast _ _ rfl).1 hreached, _, rfl⟩ hover
  | @going leaving entries hserve =>
    refine ⟨?_, fun hover => ?_⟩
    · rintro ⟨_, _, _, he⟩
      cases he
    have hpolled : machinery.poll (.teardown leaving ⟨entries⟩) t.state = (t.state, _) :=
      hstill.poll id _ htask
    have hdone := TreeCall.poll_of_over hserve hover
    have hprogress := congrArg Prod.snd hpolled
    change (t.state.goOnTeardown leaving (Teardown.poll ⟨entries⟩ t.state.fleet)).2 = _ at hprogress
    unfold goOnTeardown at hprogress
    rcases hp : Teardown.poll ⟨entries⟩ t.state.fleet with ⟨fleet, progress⟩
    rw [hp] at hdone hprogress
    obtain rfl : progress = .done () := hdone
    cases hprogress

theorem launch_of_nothing (hcommand : command = .teardown ∨ command = .leave)
    (hstep : step.command? = some command) (h : before.state.fleet.registry.entries = []) :
    ∃ answer, (launch machinery before step).tasks[before.tasks.size]? =
      some (.ended before.state.now (.result (.ok answer))) := by
  obtain ⟨leaving, hstart⟩ := start_teardown hcommand before.activities before.state
  obtain ⟨-, htask, -⟩ := launch_command (m := machinery) hstep before
  have hnothing : Teardown.start before.state.termLimit before.state.killLimit before.state.fleet =
      (before.state.fleet, .done ()) := by
    unfold Teardown.start
    rw [h]
  rw [hstart, hnothing] at htask
  exact ⟨_, htask⟩

/-- What becomes of a session when a step begins and nothing else is asked for. -/
def ticking (before : Timeline Session Activity Result) (step : Step Command) (count : Nat) :
    Timeline Session Activity Result :=
  play machinery (move machinery before (.begin step)) (List.replicate count .tick)

def teardownCalls (before : Timeline Session Activity Result) (step : Step Command) (count : Nat) :
    List TreeCall :=
  TreeCall.callsIn (before.state.freshCalls before.state.fleet.registry.entries)
    (turnsOfStep machinery before step (List.replicate count .tick))

variable {count number : Nat}

theorem entries_teardownCalls (before : Timeline Session Activity Result) (step : Step Command)
    (count : Nat) :
    (teardownCalls before step count).map (·.entry) = before.state.fleet.registry.entries :=
  (TreeCall.entries_callsIn _ _).trans (entries_freshCalls _ _)

theorem mem_entries (hc : c ∈ teardownCalls before step count) :
    c.entry ∈ before.state.fleet.registry.entries :=
  entries_teardownCalls before step count ▸ List.mem_map_of_mem hc

theorem Poised.exists_standsAt (h : Poised before) (step : Step Command)
    (hmoment : before.state.now ≤ moment) :
    ∃ count, StandsAt machinery (ticking before step count) moment := by
  obtain ⟨ch, hf⟩ := h.faithful
  have hnow := (machinery_punctual.now_settle (launch machinery before step)).trans
    (machinery_punctual.now_launch before step)
  exact Session.exists_standsAt (hf.move _) (Nat.le_trans (Nat.le_of_eq hnow) hmoment)

theorem Poised.eq_of_entry (h : Poised before) (hc : c ∈ teardownCalls before step count)
    (hd : d ∈ teardownCalls before step count) (hsame : c.entry = d.entry) : c = d := by
  have hnodup : ((teardownCalls before step count).map (·.entry)).Nodup :=
    entries_teardownCalls before step count ▸ List.Nodup.of_map _ h.registered.unique
  exact List.inj_on_of_nodup_map hnodup hc hd hsame

theorem Poised.known (h : Poised before) (hc : c ∈ teardownCalls before step count) :
    ((ticking before step count).state.fleet.process? c.entry.process).isSome = true := by
  obtain ⟨p, hp, -⟩ := h.registered.known c.entry (mem_entries hc)
  exact exists_later (Option.isSome_iff_exists.mpr ⟨p, hp⟩)
    ((later_move before (.begin step)).play _)

section

variable (h : Poised before) (hbefore : Later machinery { state := s.afresh w others } before)
  (hcommand : command = .teardown ∨ command = .leave) (hstep : step.command? = some command)
  (hstands : StandsAt machinery (ticking before step count) moment)

include h hbefore hcommand hstep hstands

theorem Poised.sameFate (hc : c ∈ teardownCalls before step count)
    (halone : StandsAt machinery (ticking before (before.state.endTree c.entry) number) moment) :
    SameFate before.state.fleet.scene.system c.entry.pid
        (ticking before step count).state.fleet.scene.system
        (ticking before (before.state.endTree c.entry) number).state.fleet.scene.system ∧
      ∀ result, c.progress = .done result ↔
        EndedWith (ticking before (before.state.endTree c.entry) number) before.tasks.size moment
          result := by
  obtain ⟨task, htask, hteardown⟩ :=
    h.accompanies_teardown hbefore hcommand hstep (mem_entries hc) count
  obtain ⟨other, hother, htree⟩ := h.accompanies_tree (mem_entries hc) number
  obtain ⟨hfate, d, hd, hentry, hiff⟩ := sameFate_of_standing
    (conductor_teardown before before.tasks.size) hteardown htree htask hother hstands halone
  obtain rfl := h.eq_of_entry hd hc hentry
  exact ⟨hfate, hiff⟩

theorem Poised.ended_iff (hmoment : before.state.now ≤ moment) :
    (∃ time ≤ moment, ∃ answer, (ticking before step count).tasks[before.tasks.size]? =
        some (.ended time (.result (.ok answer)))) ↔
      ∀ c ∈ teardownCalls before step count, c.Over (ticking before step count).state.fleet := by
  cases hnone : before.state.fleet.registry.entries with
  | nil =>
    -- there is no call to keep step with, but the teardown is over when it has begun
    obtain ⟨answer, hanswer⟩ := launch_of_nothing hcommand hstep hnone
    have hover := ended_play (m := machinery) (ended_settle (m := machinery) hanswer)
      (List.replicate count .tick)
    have hempty : teardownCalls before step count = [] :=
      List.map_eq_nil_iff.mp ((entries_teardownCalls before step count).trans hnone)
    refine iff_of_true ⟨_, hmoment, answer, hover⟩ ?_
    rw [hempty]
    exact List.forall_mem_nil _
  | cons entry rest =>
    obtain ⟨ch, hf⟩ := h.faithful
    have he : entry ∈ before.state.fleet.registry.entries := hnone ▸ List.mem_cons_self
    obtain ⟨task, htask, hteardown⟩ := h.accompanies_teardown hbefore hcommand hstep he count
    have hiff := answered_iff hteardown.conducted hteardown.past htask (still_play hf _ _)
      hstands.reached
    have htask : (ticking before step count).tasks[before.tasks.size]? = some task := htask
    rw [htask]
    simp only [Option.some.injEq]
    exact hiff

end

/-- A teardown treats each tree as if there were no others. Nobody but the teardown does anything to
the system, and nobody is kin of the pids of two entries. Then there are moments for the teardown to
come as far as any moment, and so there are if the tree of one entry is ended alone, with the same
limits and from the same moment on. When both have come as far as that moment, the same attempts
have been made on the tree at the same times, the same has become of each of its processes, and the
ending of the tree has succeeded, has failed in the same way, or goes on in both. And the teardown
is over if and only if each of these endings is over by then and, where it has succeeded, the exit
of the process has been reported; it has reported then which of them have failed. -/
theorem teardown_treats_trees_alone {first : List (Move Command)}
    (hcommand : command = .teardown ∨ command = .leave) (hstep : step.command? = some command) :
    let before := play machinery { state := s.afresh w others } first
    let entries := before.state.fleet.registry.entries
    let world := before.state.fleet.scene.system
    let together (count : Nat) :=
      play machinery (move machinery before (.begin step)) (List.replicate count .tick)
    let turns (count : Nat) := turnsOfStep machinery before step (List.replicate count .tick)
    let calls (count : Nat) := TreeCall.callsIn (before.state.freshCalls entries) (turns count)
    let lone (entry : Tracked) (count : Nat) :=
      play machinery (move machinery before (.begin (before.state.endTree entry)))
        (List.replicate count .tick)
    (∀ a ∈ before.activities, a.isWait = true) → Apart world entries →
    ∀ moment, before.state.now ≤ moment →
      (∃ count, StandsAt machinery (together count) moment) ∧
      (∀ entry, ∃ count, StandsAt machinery (lone entry count) moment) ∧
      ∀ count, StandsAt machinery (together count) moment →
        TreeCall.Conducts (before.state.freshCalls entries) (turns count) ∧
        (calls count).map (·.entry) = entries ∧
        (∀ c ∈ calls count, ∀ number, StandsAt machinery (lone c.entry number) moment →
          SameFate world c.entry.pid (together count).state.fleet.scene.system
              (lone c.entry number).state.fleet.scene.system ∧
            ∀ result, c.progress = .done result ↔
              EndedWith (lone c.entry number) before.tasks.size moment result) ∧
        ((∃ time ≤ moment, ∃ answer, (together count).tasks[before.tasks.size]? =
            some (.ended time (.result (.ok answer)))) ↔
          ∀ entry ∈ entries, ∀ number, StandsAt machinery (lone entry number) moment →
            ∃ result, EndedWith (lone entry number) before.tasks.size moment result ∧
              (result = .ok () →
                (together count).state.fleet.isRunning entry.process = false)) ∧
        ∀ time answer, (together count).tasks[before.tasks.size]? =
            some (.ended time (.result (.ok answer))) →
          (turns count).flatMap errorsIn = (calls count).filterMap TreeCall.complaint? := by
  intro before entries world together turns calls lone hwaits hapart moment hmoment
  have hbefore : Later machinery { state := s.afresh w others } before := Later.refl.play first
  have hpoised : Poised before := .of_play hwaits hapart
  have hlone : ∀ entry, ∃ count, StandsAt machinery (lone entry count) moment := fun entry =>
    hpoised.exists_standsAt (before.state.endTree entry) hmoment
  refine ⟨hpoised.exists_standsAt step hmoment, hlone, fun count hstands => ?_⟩
  have hentries : (calls count).map (·.entry) = entries := entries_teardownCalls before step count
  have hsame : ∀ c ∈ calls count, ∀ number, StandsAt machinery (lone c.entry number) moment →
      SameFate world c.entry.pid (together count).state.fleet.scene.system
          (lone c.entry number).state.fleet.scene.system ∧
        ∀ result, c.progress = .done result ↔
          EndedWith (lone c.entry number) before.tasks.size moment result :=
    fun c hc number => hpoised.sameFate hbefore hcommand hstep hstands hc
  have hended := hpoised.ended_iff hbefore hcommand hstep hstands hmoment
  obtain ⟨task, htask, hproceeding⟩ := (upheld_conducted before before.tasks.size _).step
    machinery_punctual (proceeding_launch hbefore hcommand hstep) (List.replicate count .tick)
  -- the teardown is over when its calls are, and these fare as the lone ones do
  refine ⟨hproceeding.2.conducts, hentries, hsame, ?_, fun time answer hanswer => ?_⟩
  · refine hended.trans ⟨fun hover entry he number halone => ?_, fun hall c hc => ?_⟩
    · obtain ⟨c, hc, rfl⟩ := List.mem_map.mp (hentries ▸ he : entry ∈ (calls count).map (·.entry))
      obtain ⟨result, hdone, hstopped⟩ := (TreeCall.over_iff (hpoised.known hc)).mp (hover c hc)
      exact ⟨result, ((hsame c hc number halone).2 result).mp hdone, hstopped⟩
    · obtain ⟨number, halone⟩ := hlone c.entry
      obtain ⟨result, hdone, hstopped⟩ :=
        hall c.entry (hentries ▸ List.mem_map_of_mem hc) number halone
      exact (TreeCall.over_iff (hpoised.known hc)).mpr
        ⟨result, ((hsame c hc number halone).2 result).mpr hdone, hstopped⟩
  · obtain rfl := Option.some.inj (htask.symm.trans hanswer)
    have hstands := hproceeding.2.stands
    cases hstands with
    | answered _ he => exact he

/-- Of two trees one does not end when it is asked to. While it is waited for, the other one is
over: it has been looked at again when it would have been if it had been alone. -/
theorem teardown_treats_two_trees_alone :
    let stubborn : Program :=
      { shell := { pid := 100, ppid := 1, pgid := 100, onTerm := none }
        family :=
          [{ spec :=
              { pid := 102, ppid := 100, pgid := 100, onTerm := some (Instant.ofMillis 7) } }] }
    let obedient : Program :=
      { shell := { pid := 101, ppid := 1, pgid := 101, onTerm := some (Instant.ofMillis 3) } }
    let start : Timeline Session Activity Result :=
      { state := ({ termLimit := .ofDecimal 1 (-1) } : Session).afresh
          { programs := [.program stubborn, .program obedient] } [] }
    let opening : List (Move Command) :=
      [.begin (.act (.start "first" { command := "wrangler dev" } true)),
       .begin (.act (.start "second" { command := "wrangler tail" } true))]
    let before := play machinery start opening
    let entries := before.state.fleet.registry.entries
    let world := before.state.fleet.scene.system
    let together := play machinery (move machinery before (.begin (.act .teardown)))
      (List.replicate 3 .tick)
    let lone (entry : Tracked) :=
      play machinery (move machinery before (.begin (before.state.endTree entry)))
        (List.replicate 2 .tick)
    entries.map (·.pid) = [100, 101] ∧ Apart world entries ∧
      StandsAt machinery together (Instant.ofMillis 60) ∧
      (∀ entry ∈ entries, StandsAt machinery (lone entry) (Instant.ofMillis 60) ∧
        SameFate world entry.pid together.state.fleet.scene.system
          (lone entry).state.fleet.scene.system) ∧
      entries.map (fun entry => (lone entry).tasks[before.tasks.size]?.map Task.isPending) =
        [some true, some false] ∧
      together.tasks[before.tasks.size]?.map Task.isPending = some true := by
  intro stubborn obedient start opening before entries world together lone
  have hpids : entries.map (·.pid) = [100, 101] := by decide +kernel
  have hwaits : ∀ a ∈ before.activities, a.isWait = true := by decide +kernel
  have hapart : Apart world entries := by decide +kernel
  have hstands : StandsAt machinery together (Instant.ofMillis 60) := by decide +kernel
  have hlone : ∀ entry ∈ entries, StandsAt machinery (lone entry) (Instant.ofMillis 60) := by
    decide +kernel
  have hpending : entries.map
      (fun entry => (lone entry).tasks[before.tasks.size]?.map Task.isPending) =
        [some true, some false] ∧
      together.tasks[before.tasks.size]?.map Task.isPending = some true := by
    decide +kernel
  refine ⟨hpids, hapart, hstands, fun entry he => ⟨hlone entry he, ?_⟩, hpending⟩
  have hreached : before.state.now ≤ Instant.ofMillis 60 := by decide +kernel
  have hstep : (Step.act Command.teardown).command? = some .teardown := rfl
  subst lone together world entries before start
  obtain ⟨-, -, hall⟩ :=
    teardown_treats_trees_alone (.inl rfl) hstep hwaits hapart _ hreached
  obtain ⟨-, hentries, hsame, -⟩ := hall 3 hstands
  obtain ⟨c, hc, rfl⟩ := List.mem_map.mp (hentries ▸ he)
  have halone := hlone c.entry he
  beta_reduce at halone hsame ⊢
  exact (hsame c hc 2 halone).1

end Session

end Overseer
