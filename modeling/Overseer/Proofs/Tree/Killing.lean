import Overseer.Proofs.Session.SystemChanges

/-!
# Killed trees

The ending of a tree keeps watch over the members that it has found: each of them is either among
those that count as alive, or gone for good (`Watch`). A look takes a member off the list only when
it is dead, and a dead process never comes back. So when the list is empty, all have been killed.
-/

namespace Overseer

open Overseer.Tree Number World Timeline

theorem World.System.ongoing_evolves : System.Ongoing System.Evolves where
  refl := .refl
  trans := .trans
  advance := System.evolves_advance
  emptyPipe := System.evolves_emptyPipe
  signalProcess := System.evolves_signalProcess
  signalGroup := System.evolves_signalGroup
  spawn := System.evolves_spawn

theorem Fleet.Calls.evolves {k : Prop} {f g : Fleet} (h : Calls k f g) :
    f.scene.system.Evolves g.scene.system := System.ongoing_evolves.calls h

namespace Session

variable {t u : Timeline Session Activity Result}

theorem evolves_later (h : Later machinery t u) :
    t.state.fleet.scene.system.Evolves u.state.fleet.scene.system :=
  System.ongoing_evolves.later h

theorem sound_later {s : Session} {w : System} {others : List Birth}
    (h : Later machinery { state := s.afresh w others } t) : t.state.fleet.scene.system.Sound :=
  (evolves_later h).sound
    ((System.evolves_foldl System.evolves_bear others _).sound (.of_empty rfl rfl))

end Session

namespace Tree

structure Watch (found alive : List ProcessRef) (w : System) : Prop where
  sound : w.Sound
  known : ∀ p ∈ found, p.obstacles.status = none ∧ w.Known p.serial
  watched : ∀ p ∈ found, p ∈ alive ∨ w.Gone p.serial

section

variable {w after : System} {found alive rest : List ProcessRef} {p : ProcessRef}

theorem Watch.evolves (h : Watch found alive w) (he : w.Evolves after) :
    Watch found alive after where
  sound := he.sound h.sound
  known p hp := ⟨(h.known p hp).1, he.known (h.known p hp).2⟩
  watched p hp := (h.watched p hp).imp id he.gone

/-- A process that counts as alive exists, and its status has been told. -/
theorem isAlive_eq_true (h : isAlive w p = .ok true) :
    p.obstacles.status = none ∧ ∃ x ∈ w.table, x.serial = p.serial := by
  unfold isAlive at h
  by_cases hr : w.isRunning p = true
  · rw [if_pos hr] at h
    obtain ⟨x, hx⟩ := Option.isSome_iff_exists.mp hr
    have hserial : (x.serial == p.serial) = true :=
      List.find?_some (p := fun x : Process => x.serial == p.serial) hx
    refine ⟨?_, x, List.mem_of_find?_eq_some hx, eq_of_beq hserial⟩
    unfold System.isZombie at h
    cases ho : p.obstacles.status with
    | none => rfl
    | some refusal => cases refusal <;> simp [ho] at h
  · rw [if_neg hr] at h
    cases h

/-- A process that does not count as alive is dead, if its status is told. -/
theorem isAlive_eq_false (hs : p.obstacles.status = none) (h : isAlive w p = .ok false) :
    w.Dead p := by
  intro x hx
  have hr : w.isRunning p = true := Option.isSome_iff_exists.mpr ⟨x, hx⟩
  unfold isAlive System.isZombie at h
  rw [if_pos hr, hs, hx] at h
  simpa using h

theorem survivors_cons {q : ProcessRef} {ps : List ProcessRef}
    (h : survivors w (q :: ps) = .ok rest) :
    ∃ living others, isAlive w q = .ok living ∧ survivors w ps = .ok others ∧
      rest = if living then q :: others else others := by
  rw [survivors] at h
  cases ha : isAlive w q with
  | error failure =>
    rw [ha] at h
    cases h
  | ok living =>
    rw [ha] at h
    cases ho : survivors w ps with
    | error failure =>
      rw [ho] at h
      cases h
    | ok others =>
      rw [ho] at h
      exact ⟨living, others, rfl, rfl, (Except.ok.inj h).symm⟩

theorem mem_survivors {ps : List ProcessRef} (h : survivors w ps = .ok rest) (hp : p ∈ ps) :
    p ∈ rest ∨ isAlive w p = .ok false := by
  induction ps generalizing rest with
  | nil => cases hp
  | cons q ps ih =>
    obtain ⟨living, others, hq, hothers, rfl⟩ := survivors_cons h
    rcases List.mem_cons.mp hp with rfl | hp
    · cases living with
      | true => exact .inl List.mem_cons_self
      | false => exact .inr hq
    · refine (ih hothers hp).imp (fun hm => ?_) id
      cases living with
      | true => exact List.mem_cons_of_mem q hm
      | false => exact hm

theorem mem_of_mem_survivors {ps : List ProcessRef} (h : survivors w ps = .ok rest)
    (hp : p ∈ rest) : p ∈ ps := by
  induction ps generalizing rest with
  | nil =>
    obtain rfl := Except.ok.inj h
    cases hp
  | cons q ps ih =>
    obtain ⟨living, others, -, hothers, rfl⟩ := survivors_cons h
    cases living with
    | false => exact List.mem_cons_of_mem q (ih hothers hp)
    | true =>
      rcases List.mem_cons.mp hp with rfl | hp
      · exact List.mem_cons_self
      · exact List.mem_cons_of_mem q (ih hothers hp)

theorem isAlive_of_mem_survivors {ps : List ProcessRef} (h : survivors w ps = .ok rest)
    (hp : p ∈ rest) : isAlive w p = .ok true := by
  induction ps generalizing rest with
  | nil =>
    obtain rfl := Except.ok.inj h
    cases hp
  | cons q ps ih =>
    obtain ⟨living, others, hq, hothers, rfl⟩ := survivors_cons h
    cases living with
    | true =>
      rcases List.mem_cons.mp hp with rfl | hp
      · exact hq
      · exact ih hothers hp
    | false => exact ih hothers hp

theorem Watch.look (h : Watch found alive w) (hs : survivors w alive = .ok rest) :
    Watch found rest w where
  sound := h.sound
  known := h.known
  watched p hp := by
    rcases h.watched p hp with ha | hg
    · refine (mem_survivors hs ha).imp id fun hdead => ?_
      obtain ⟨hstatus, hknown⟩ := h.known p hp
      exact hknown.gone h.sound (isAlive_eq_false hstatus hdead)
    · exact .inr hg

theorem Watch.of_members (h : w.Sound) {pid : Int} (hm : (members w pid).1 = .ok found) :
    Watch found found w := by
  refine ⟨h, fun p hp => ?_, fun p hp => .inl hp⟩
  have halive : isAlive w p = .ok true := by
    unfold members at hm
    split at hm
    · cases hm
    · exact isAlive_of_mem_survivors hm hp
  obtain ⟨hstatus, x, hx, hserial⟩ := isAlive_eq_true halive
  exact ⟨hstatus, hserial ▸ h.known hx⟩

theorem Watch.dead (h : Watch found [] w) (hp : p ∈ found) : w.Dead p := by
  rcases h.watched p hp with hn | hg
  · cases hn
  · exact fun x => hg.dead

end

namespace Termination

/-- What the ending of a tree answers for: while it goes on it keeps watch over the members found,
and when it succeeds nobody is left. -/
def Accounts (found : List ProcessRef) (w : System) : Progress Termination Result → Prop
  | .pending rest => ∃ v, rest.vigil = some v ∧ Watch found v.alive w
  | .done (.ok ()) => Watch found [] w
  | .done (.error _) => True

section

variable {found alive : List ProcessRef} {s : Scene}

theorem evolves_signalAll (s : Scene) (pid : Int) (ps : List ProcessRef) (signal : Signal) :
    s.system.Evolves (signalAll s pid ps signal).system :=
  (calls_signalAll (k := False) (f := { scene := s }) (g := {}) .refl pid ps signal).evolves

theorem accounts_lookAtKilled (h : Watch found alive s.system) (t : Termination)
    (deadline : Option Instant) :
    Accounts found (t.lookAtKilled alive deadline s).1.system
      (t.lookAtKilled alive deadline s).2 := by
  unfold lookAtKilled
  split
  · trivial
  next hs => exact h.look hs
  next rest _ hs =>
    split
    · trivial
    · exact ⟨_, rfl, h.look hs⟩

theorem accounts_kill (h : Watch found alive s.system) (t : Termination) :
    Accounts found (t.kill alive s).1.system (t.kill alive s).2 :=
  accounts_lookAtKilled (h.evolves (evolves_signalAll (s.report _) t.pid alive .kill)) t _

theorem accounts_lookAtAsked (h : Watch found alive s.system) (t : Termination)
    (deadline : Option Instant) :
    Accounts found (t.lookAtAsked alive deadline s).1.system
      (t.lookAtAsked alive deadline s).2 := by
  unfold lookAtAsked
  split
  · trivial
  next hs => exact h.look hs
  next rest _ hs =>
    split
    · exact accounts_kill (h.look hs) t
    · exact ⟨_, rfl, h.look hs⟩

theorem accounts_start (h : s.system.Sound) (t : Termination)
    (hm : (members s.system t.pid).1 = .ok found) :
    Accounts found (t.start s).1.system (t.start s).2 := by
  have hw := Watch.of_members h hm
  rcases hr : members s.system t.pid with ⟨result, notes⟩
  rw [hr] at hm
  obtain rfl : result = .ok found := hm
  unfold start
  rw [hr]
  cases found with
  | nil => exact hw
  | cons p ps =>
    exact accounts_lookAtAsked
      (hw.evolves (evolves_signalAll (s.report _ |>.report _) t.pid _ .term)) t _

theorem accounts_keepVigil {v : Vigil} (h : Watch found v.alive s.system) {t : Termination}
    (hv : t.vigil = some v) :
    Accounts found (t.keepVigil v s).1.system (t.keepVigil v s).2 := by
  unfold keepVigil
  split
  · cases v.stage with
    | asked => exact accounts_kill h t
    | killed => trivial
  · split
    · cases v.stage with
      | asked => exact accounts_lookAtAsked h t _
      | killed => exact accounts_lookAtKilled h t _
    · exact ⟨v, hv, h⟩

theorem accounts_poll {t : Termination} (h : Accounts found s.system (.pending t)) :
    Accounts found (t.poll s).1.system (t.poll s).2 := by
  obtain ⟨v, hv, hw⟩ := h
  unfold poll
  rw [hv]
  exact accounts_keepVigil hw hv

theorem start_of_error (t : Termination) {failure : Failure}
    (hm : (members s.system t.pid).1 = .error failure) :
    (t.start s).2 = .done (.error failure) := by
  rcases hr : members s.system t.pid with ⟨result, notes⟩
  rw [hr] at hm
  obtain rfl : result = .error failure := hm
  unfold start
  rw [hr]

end

end Termination

end Tree

namespace Session

variable {found : List ProcessRef} {w after : System} {t u : Timeline Session Activity Result}
variable {id : TaskId}

def Kills (found : List ProcessRef) (w : System) : Task Activity Result → Prop
  | .pending (.act (.tree tree)) => Termination.Accounts found w (.pending tree)
  | .pending _ => False
  | .ended _ (.result (.ok _)) => Watch found [] w
  | .ended _ _ => True

theorem Kills.evolves {task : Task Activity Result} (h : Kills found w task)
    (he : w.Evolves after) : Kills found after task := by
  unfold Kills at h ⊢
  split at h
  · obtain ⟨v, hv, hw⟩ := h
    exact ⟨v, hv, hw.evolves he⟩
  · exact h
  · exact Watch.evolves h he
  · exact h

theorem kills_ofProgress (now : Instant) {progress : Progress Termination Termination.Result}
    (h : Termination.Accounts found w progress) :
    Kills found w (.ofProgress now (progress.map .tree (·.map fun _ => .nothing))) := by
  obtain tree | ⟨failure | ⟨⟩⟩ := progress
  · exact h
  · trivial
  · exact h

def Killing (found : List ProcessRef) (id : TaskId) (t : Timeline Session Activity Result) : Prop :=
  ∃ task, t.tasks[id]? = some task ∧ Kills found t.state.fleet.scene.system task

theorem Killing.of_eq (h : Killing found id t) (htask : u.tasks[id]? = t.tasks[id]?)
    (he : t.state.fleet.scene.system.Evolves u.state.fleet.scene.system) : Killing found id u := by
  obtain ⟨task, ht, hk⟩ := h
  exact ⟨task, htask.trans ht, hk.evolves he⟩

theorem Killing.lt (h : Killing found id t) : id < t.tasks.size := by
  obtain ⟨task, ht, -⟩ := h
  exact (Array.getElem?_eq_some_iff.mp ht).1

theorem Killing.cancelTask (h : Killing found id t) (other : TaskId) :
    Killing found id (cancelTask machinery t other).1 := by
  have he : t.state.fleet.scene.system.Evolves
      (Timeline.cancelTask machinery t other).1.state.fleet.scene.system :=
    (calls_cancelTask (k := False) .refl other).evolves
  by_cases hid : other = id
  · subst hid
    obtain ⟨task, ht, hk⟩ := h
    cases task with
    | pending errand => exact ⟨_, cancelTask_pending ht, trivial⟩
    | ended time ending => exact ⟨_, ended_cancelTask ht, hk.evolves he⟩
  · exact h.of_eq (cancelTask_of_ne hid) he

theorem Killing.launch (h : Killing found id t) (step : Step Command) :
    Killing found id (launch machinery t step) := by
  refine launch_induction (m := machinery) (P := Killing found id) ?_ ?_ ?_ ?_ h step
  · exact fun u task _ hu => hu.of_eq (push_of_lt hu.lt) (.refl _)
  · exact fun u names hu => hu
  · exact fun u other hu => hu.cancelTask other
  · exact fun u command hu =>
      hu.of_eq (push_of_lt (t := { u with state := _ }) hu.lt)
        (calls_launch u (.act command)).evolves

theorem Killing.pollTask (h : Killing found id t) (other : TaskId) :
    Killing found id (pollTask machinery t other) := by
  have he : t.state.fleet.scene.system.Evolves
      (Timeline.pollTask machinery t other).state.fleet.scene.system :=
    evolves_later (.poll other .refl)
  by_cases hid : other = id
  · subst hid
    obtain ⟨task, ht, hk⟩ := h
    rcases task with (_ | _ | ⟨_ | _ | tree | _ | _ | _⟩) | ⟨time, ending⟩
    case ended => exact ⟨_, ended_pollTask ht, hk.evolves he⟩
    case pending.act.tree =>
      obtain ⟨hstate, htask⟩ := pollTask_pending (m := machinery) ht
      refine ⟨_, htask, ?_⟩
      rw [hstate]
      exact kills_ofProgress _ (Termination.accounts_poll hk)
    all_goals exact hk.elim
  · exact h.of_eq (pollTask_of_ne hid) he

theorem Killing.later (h : Killing found id t) (hlater : Later machinery t u) :
    Killing found id u := by
  refine Later.induction (m := machinery) (P := Killing found id) ?_ ?_ ?_ ?_ ?_ h hlater
  · exact fun u step hu => hu.launch step
  · exact fun u moment hu => hu.of_eq rfl (System.evolves_advance _ moment)
  · exact fun u hu => hu.of_eq rfl (System.ongoing_evolves.readOutputs _)
  · exact fun u hu => hu.of_eq rfl (System.ongoing_evolves.watchEnds _)
  · exact fun u other hu => hu.pollTask other

/-- Whoever ends a tree and is told of no failure has ended every process that was a live member of
it at the beginning: from the moment of the answer on, none of them is alive. -/
theorem killTree_kills {s : Session} {w : System} {others : List Birth}
    {before after : Timeline Session Activity Result} {step : Step Command} {pid : Int}
    {termLimit killLimit : Option Seconds} {time : Instant} {answer : Answer}
    (hbefore : Later machinery { state := s.afresh w others } before)
    (hstep : step.command? = some (.killTree pid termLimit killLimit))
    (hafter : Later machinery (launch machinery before step) after)
    (hdone : after.tasks[before.tasks.size]? = some (.ended time (.result (.ok answer)))) :
    ∃ found, (members before.state.fleet.scene.system pid).1 = .ok found ∧
      ∀ p ∈ found, after.state.fleet.scene.system.Dead p := by
  obtain ⟨hstate, htask, -⟩ := launch_command (m := machinery) hstep before
  let tree : Termination :=
    { pid, termLimit := termLimit.getD Termination.usualTermLimit
      killLimit := killLimit.getD Termination.usualKillLimit }
  cases hm : (members before.state.fleet.scene.system pid).1 with
  | error failure =>
    have hfailed : (machinery.start before.activities (.killTree pid termLimit killLimit)
        before.state).2 = .done (.error failure) :=
      congrArg (·.map Activity.tree (·.map fun _ => Answer.nothing))
        (Termination.start_of_error (s := before.state.fleet.scene) tree hm)
    rw [hfailed] at htask
    have hended := ended_later htask hafter
    rw [hdone] at hended
    cases hended
  | ok found =>
    have hbegun : Killing found before.tasks.size (Timeline.launch machinery before step) := by
      refine ⟨_, htask, ?_⟩
      rw [hstate]
      exact kills_ofProgress _ (Termination.accounts_start (sound_later hbefore) tree hm)
    obtain ⟨task, ht, hkills⟩ := hbegun.later hafter
    rw [hdone] at ht
    obtain rfl := Option.some.inj ht
    exact ⟨found, rfl, fun p hp => Watch.dead hkills hp⟩

def isAnswered : Task Activity Result → Bool
  | .ended _ (.result (.ok _)) => true
  | _ => false

theorem isAnswered_iff {task : Task Activity Result} :
    isAnswered task = true ↔ ∃ time answer, task = .ended time (.result (.ok answer)) := by
  unfold isAnswered
  split <;> simp_all

/-- One member ignores the request to end, another stays behind as a zombie. -/
theorem killTree_kills_stubborn :
    let others : List Birth :=
      [{ spec := { pid := 40, ppid := 1, pgid := 40 } },
       { spec := { pid := 41, ppid := 40, pgid := 40, onTerm := none, onKill := some 7 } },
       { spec := { pid := 42, ppid := 41, pgid := 42, leavesZombie := true } }]
    let before : Timeline Session Activity Result := { state := ({} : Session).afresh {} others }
    let step : Step Command := .act (.killTree 40 (some (.ofDecimal 1 (-1))) none)
    let after := play machinery (move machinery before (.begin step)) (List.replicate 4 .tick)
    ∃ time answer found, after.tasks[before.tasks.size]? =
      some (.ended time (.result (.ok answer))) ∧
      (members before.state.fleet.scene.system 40).1 = .ok found ∧
      found.map (·.pid) = [40, 41, 42] ∧ ∀ p ∈ found, after.state.fleet.scene.system.Dead p := by
  intro others before step after
  have hafter : Later machinery (launch machinery before step) after :=
    .play (.settle .refl) (List.replicate 4 .tick)
  have hanswered : after.tasks[before.tasks.size]?.any isAnswered = true := by decide +kernel
  obtain ⟨task, htask, hanswer⟩ := (Option.any_eq_true _ _).mp hanswered
  obtain ⟨time, answer, rfl⟩ := isAnswered_iff.mp hanswer
  have hbefore : Later machinery { state := ({} : Session).afresh {} others } before := .refl
  have hstep : step.command? = some (.killTree 40 (some (.ofDecimal 1 (-1))) none) := rfl
  obtain ⟨found, hfound, hdead⟩ := killTree_kills hbefore hstep hafter htask
  refine ⟨time, answer, found, htask, hfound, ?_, hdead⟩
  have hpids : ((members before.state.fleet.scene.system 40).1.toOption.map
      (·.map (·.pid))) = some [40, 41, 42] := by decide +kernel
  rw [hfound] at hpids
  exact Option.some.inj hpids

end Session

end Overseer
