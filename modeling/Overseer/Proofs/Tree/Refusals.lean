import Overseer.Proofs.Tree.GroupNewcomers
import Overseer.Proofs.Tree.Leftovers

/-!
# What a refusal does to the ending of a tree

Two refusals keep the members of a tree from being found out: that of the group of the root, and
that of the status of somebody who may be a member (`Tree.Barred`). A call that meets one of them
fails at once, not as a call that could not end a tree does, and asks nobody to end, however many
members could be asked. Whatever else is refused, the call fails only where members are left, and
every live process of the group that can be asked for its group and its status is asked to end. -/

namespace Overseer

open Overseer.Tree Number World Timeline

namespace Tree

def candidates (w : System) (pid : Int) : List ProcessRef :=
  let family := (rootFamily w pid).1.toOption.getD []
  if w.windows then family else merge family (groupMembers w pid)

/-- What keeps the members of a tree from being found out: the group of the root is refused, or the
status of somebody who may be a member. -/
inductive Barred (w : System) (pid : Int) : Failure → Prop where
  | group {x : Process} : w.windows = false → w.table.find? pid = some x →
      x.obstacles.opening = none → x.obstacles.group = some .denied → Barred w pid .notPermitted
  | status {p : ProcessRef} : p ∈ candidates w pid → p.obstacles.status = some .denied →
      Barred w pid (.accessDenied p.pid)

section

variable {w : System} {pid : Int} {failure : Failure} {found : List ProcessRef} {p : ProcessRef}

theorem openProcess_isOk_iff :
    (∃ p, w.openProcess pid = .ok p) ↔
      ∃ x, w.table.find? pid = some x ∧ x.obstacles.opening = none := by
  unfold System.openProcess
  cases w.table.find? pid with
  | none => simp
  | some x => cases ho : x.obstacles.opening <;> simp [ho]

theorem isRoot_eq_error_iff :
    (∃ failure, isRoot w pid = .error failure) ↔
      w.windows = false ∧ ∃ x, w.table.find? pid = some x ∧ x.obstacles.group = some .denied := by
  unfold isRoot System.group
  cases w.windows with
  | true => simp
  | false =>
    cases w.table.find? pid with
    | none => simp
    | some x =>
      cases ho : x.obstacles.group with
      | none => simp [ho]
      | some refusal => cases refusal <;> simp [ho]

/-- The family of the root cannot be found out when the root can be opened but its group is
refused. -/
theorem rootFamily_eq_error_iff :
    (∃ failure, (rootFamily w pid).1 = .error failure) ↔
      w.windows = false ∧ ∃ x, w.table.find? pid = some x ∧ x.obstacles.opening = none ∧
        x.obstacles.group = some .denied := by
  have hsplit : (∃ failure, (rootFamily w pid).1 = .error failure) ↔
      (∃ root, w.openProcess pid = .ok root) ∧ ∃ failure, isRoot w pid = .error failure := by
    unfold rootFamily
    cases w.openProcess pid with
    | error refusal => cases refusal <;> simp
    | ok root =>
      rcases isRoot w pid with failure | _ | _
      · simp
      · simp
      · rcases hd : w.descendants root with ⟨_ | _⟩ | below <;> simp [hd]
  rw [hsplit, openProcess_isOk_iff, isRoot_eq_error_iff]
  constructor
  · rintro ⟨⟨x, hx, hopening⟩, hposix, y, hy, hgroup⟩
    obtain rfl := Option.some.inj (hx.symm.trans hy)
    exact ⟨hposix, x, hx, hopening, hgroup⟩
  · rintro ⟨hposix, x, hx, hopening, hgroup⟩
    exact ⟨⟨x, hx, hopening⟩, hposix, x, hx, hgroup⟩

theorem status_of_isAlive_error (h : isAlive w p = .error failure) :
    p.obstacles.status = some .denied := by
  unfold isAlive System.isZombie at h
  split at h
  · cases ho : p.obstacles.status with
    | none =>
      rw [ho] at h
      cases hd : w.table.deref? p.serial <;> simp [hd] at h
    | some refusal =>
      rw [ho] at h
      cases refusal with
      | denied => rfl
      | absent => cases h
  · cases h

theorem isAlive_of_denied (hrunning : w.isRunning p = true)
    (hstatus : p.obstacles.status = some .denied) : isAlive w p = .error (.accessDenied p.pid) := by
  unfold isAlive System.isZombie
  rw [if_pos hrunning, hstatus]

theorem survivors_ok_iff {ps : List ProcessRef} (hrunning : ∀ p ∈ ps, w.isRunning p = true) :
    (∃ rest, survivors w ps = .ok rest) ↔ ∀ p ∈ ps, p.obstacles.status ≠ some .denied := by
  constructor
  · rintro ⟨rest, h⟩ p hp hstatus
    have herror := isAlive_of_denied (hrunning p hp) hstatus
    rcases mem_survivors h hp with hrest | hdead
    · rw [isAlive_of_mem_survivors h hrest] at herror
      cases herror
    · rw [hdead] at herror
      cases herror
  · intro hall
    cases hs : survivors w ps with
    | ok rest => exact ⟨rest, rfl⟩
    | error failure =>
      obtain ⟨p, hp, herror⟩ := survivors_error hs
      exact absurd (status_of_isAlive_error herror) (hall p hp)

theorem mem_table_of_mem_candidates (hw : w.table.ByPid) (hp : p ∈ candidates w pid) :
    ∃ x ∈ w.table, x.ref = p := by
  have hfamily : p ∈ (rootFamily w pid).1.toOption.getD [] → ∃ x ∈ w.table, x.ref = p := by
    intro h
    cases hr : (rootFamily w pid).1 with
    | error failure => simp [hr, Except.toOption] at h
    | ok family =>
      have hmem : p ∈ family := by simpa [hr, Except.toOption] using h
      exact (mem_rootFamily hw hr hmem).imp fun x hx => ⟨hx.1, hx.2.1⟩
  unfold candidates at hp
  dsimp only at hp
  split at hp
  · exact hfamily hp
  · rcases mem_merge hp with hp | hp
    · exact hfamily hp
    · exact (mem_groupMembers hw hp).imp fun x hx => ⟨hx.1, hx.2.1⟩

theorem isRunning_of_mem_candidates (hs : w.Sound) (hw : w.table.ByPid)
    (hp : p ∈ candidates w pid) : w.isRunning p = true := by
  obtain ⟨x, hx, rfl⟩ := mem_table_of_mem_candidates hw hp
  exact Option.isSome_iff_exists.mpr ⟨x, hs.deref? hx⟩

theorem members_of_family {family : List ProcessRef} (h : (rootFamily w pid).1 = .ok family) :
    (members w pid).1 = survivors w (candidates w pid) := by
  unfold members candidates
  rcases hr : rootFamily w pid with ⟨result, notes⟩
  rw [hr] at h
  obtain rfl : result = .ok family := h
  rfl

theorem members_of_family_error (h : (rootFamily w pid).1 = .error failure) :
    (members w pid).1 = .error failure := by
  unfold members
  rcases hr : rootFamily w pid with ⟨result, notes⟩
  rw [hr] at h
  obtain rfl : result = .error failure := h
  rfl

theorem Barred.of_members (h : (members w pid).1 = .error failure) : Barred w pid failure := by
  cases hr : (rootFamily w pid).1 with
  | error other =>
    obtain rfl := Except.error.inj ((members_of_family_error hr).symm.trans h)
    obtain rfl := rootFamily_error hr
    obtain ⟨hposix, x, hx, hopening, hgroup⟩ := rootFamily_eq_error_iff.mp ⟨_, hr⟩
    exact .group hposix hx hopening hgroup
  | ok family =>
    rw [members_of_family hr] at h
    obtain ⟨p, hp, herror⟩ := survivors_error h
    rw [isAlive_error herror]
    exact .status hp (status_of_isAlive_error herror)

theorem Barred.members_error (h : Barred w pid failure) (hs : w.Sound) (hw : w.table.ByPid) :
    ∃ failure, (members w pid).1 = .error failure := by
  cases hr : (rootFamily w pid).1 with
  | error other => exact ⟨other, members_of_family_error hr⟩
  | ok family =>
    rw [members_of_family hr]
    cases h with
    | group hposix hx hopening hgroup =>
      obtain ⟨other, herror⟩ := rootFamily_eq_error_iff.mpr ⟨hposix, _, hx, hopening, hgroup⟩
      rw [hr] at herror
      cases herror
    | @status p hp hstatus =>
      cases hsurvivors : survivors w (candidates w pid) with
      | error other => exact ⟨other, rfl⟩
      | ok rest =>
        have htold := (survivors_ok_iff fun q hq => isRunning_of_mem_candidates hs hw hq).mp
          ⟨rest, hsurvivors⟩
        exact absurd hstatus (htold p hp)

/-- Those who were found have been asked to end in the first turn with attempts. -/
theorem Attempted.asks {deadline : Option Instant} {bouts : List (System × System)}
    (h : Attempted w pid found deadline bouts) :
    ∃ sendings rest, bouts = (w, w.sendAll sendings) :: rest ∧
      ∀ x ∈ volley w.windows pid found .term, x ∈ sendings := by
  rcases h with rfl | hforced
  · exact ⟨_, [], rfl, fun _ hx => hx⟩
  · cases hforced with
    | later => exact ⟨_, _, rfl, fun _ hx => hx⟩
    | @atOnce left =>
      refine ⟨volley w.windows pid found .term ++ volley w.windows pid left .kill, [], ?_,
        fun _ hx => List.mem_append_left _ hx⟩
      rw [System.sendAll_append]
      rfl

end

end Tree

namespace Session

variable {s : Session} {w : System} {others : List Birth}
  {before : Timeline Session Activity Result} {step : Step Command} {pid : Int}
  {termLimit killLimit : Option Seconds}

/-- A call that cannot find out the members of the tree fails as soon as it has begun. -/
theorem launch_of_error {failure : Failure}
    (hstep : step.command? = some (.killTree pid termLimit killLimit))
    (hm : (members before.state.system pid).1 = .error failure) :
    (launch machinery before step).tasks[before.tasks.size]? =
      some (.ended before.state.now (.result (.error failure))) := by
  obtain ⟨-, htask, -⟩ := launch_command (m := machinery) hstep before
  have hdone : (machinery.start before.activities (.killTree pid termLimit killLimit)
      before.state).2 = .done (.error failure) :=
    congrArg (·.map Activity.tree (·.map fun _ => Answer.nothing))
      (Termination.start_of_error (ending pid termLimit killLimit) hm)
  have hnow := machinery_punctual.now_start before.activities
    (.killTree pid termLimit killLimit) before.state
  rw [hdone, hnow] at htask
  exact htask

/-- Where something keeps the members of a tree from being found out, the call that ends the tree
fails at once in a way of its own, and nobody is asked to end. Otherwise the call fails, if
it fails at all, because members are left, and in its first attempts it asks the group and each of
its live processes to end, if these can be asked for their group and their status. -/
theorem killTree_asks_unless_barred
    (hbefore : Later machinery { state := s.afresh w others } before)
    (hstep : step.command? = some (.killTree pid termLimit killLimit))
    (moves : List (Move Command)) :
    let after := play machinery (move machinery before (.begin step)) moves
    let attempted := bouts (turnsOfStep machinery before step moves)
    ((∃ failure, Barred before.state.system pid failure) →
      ∃ failure, Barred before.state.system pid failure ∧
        after.tasks[before.tasks.size]? =
          some (.ended before.state.now (.result (.error failure))) ∧
        (∀ root reason, failure ≠ .cleanup root reason) ∧ attempted = []) ∧
    ((∀ failure, ¬ Barred before.state.system pid failure) →
      (∀ time failure,
        after.tasks[before.tasks.size]? = some (.ended time (.result (.error failure))) →
          ∃ reason, failure = .cleanup pid reason) ∧
      (before.state.system.windows = false → ∀ x ∈ before.state.system.table, x.pgid = pid →
        x.zombie = false → x.obstacles.group = none → x.obstacles.status = none →
          ∃ sendings rest,
            attempted = (before.state.system, before.state.system.sendAll sendings) :: rest ∧
            .group pid .term ∈ sendings ∧ .single x.ref .term ∈ sendings)) := by
  intro after attempted
  have hs : before.state.system.Sound := sound_later hbefore
  have hw := byPid_later hbefore
  rcases course_or_nobody hbefore hstep moves with
    ⟨p, ps, task, hm, htask, -, hcourse⟩ | ⟨hnobody, hnone, time, hended⟩
  · refine ⟨fun ⟨_, hbarred⟩ => ?_, fun _ => ⟨fun time failure hfailed => ?_,
      fun hposix x hx hpgid halive hgroup hstatus => ?_⟩⟩
    · obtain ⟨failure, herror⟩ := hbarred.members_error hs hw
      rw [hm] at herror
      cases herror
    · obtain rfl := Option.some.inj (htask.symm.trans hfailed)
      obtain ⟨_, _, _, _, _, hfailure, -⟩ := hcourse.failed
      exact ⟨_, hfailure⟩
    · have hfound := mem_members_of_group hs hw hposix hm hx hpgid halive hgroup hstatus
      obtain ⟨sendings, rest, heq, hasked⟩ := hcourse.attempted.asks
      rw [hposix] at hasked
      exact ⟨sendings, rest, heq, hasked _ List.mem_cons_self,
        hasked _ (List.mem_append_right _ (List.mem_map.mpr ⟨_, hfound, rfl⟩))⟩
  · cases hm : (members before.state.system pid).1 with
    | error failure =>
      have hbarred := Barred.of_members hm
      have hfailed : after.tasks[before.tasks.size]? =
          some (.ended before.state.now (.result (.error failure))) :=
        ended_play (ended_settle (launch_of_error hstep hm)) moves
      refine ⟨fun _ => ⟨failure, hbarred, hfailed, fun root reason => ?_, hnone⟩,
        fun hclear => absurd hbarred (hclear failure)⟩
      cases hbarred <;> exact nofun
    | ok found =>
      -- nobody was found, so the call succeeds and there is nobody who could have been asked
      rw [hm] at hended
      refine ⟨fun ⟨_, hbarred⟩ => ?_, fun _ => ⟨fun since failure hfailed => ?_,
        fun hposix x hx hpgid halive hgroup hstatus => ?_⟩⟩
      · obtain ⟨failure, herror⟩ := hbarred.members_error hs hw
        rw [hm] at herror
        cases herror
      · cases hended.symm.trans hfailed
      · have hfound := mem_members_of_group hs hw hposix hm hx hpgid halive hgroup hstatus
        cases found with
        | nil => cases hfound
        | cons p ps => exact absurd hm (hnobody p ps)

/-- The root can be neither asked for its children nor signalled, the group cannot be signalled
either, one member is not told of and another one is missed: the last member is asked all the
same, and the call fails because members are left. -/
theorem killTree_asks_despite_refusals :
    let others : List Birth :=
      [{ spec := { pid := 40, ppid := 1, pgid := 40
                   obstacles := { children := some .denied, terminate := some .denied
                                  kill := some .denied } } },
       { spec := { pid := 41, ppid := 40, pgid := 40, obstacles := { status := some .absent } } },
       { spec := { pid := 42, ppid := 40, pgid := 40, obstacles := { group := some .denied } } },
       { spec := { pid := 43, ppid := 1, pgid := 40 } }]
    let before : Timeline Session Activity Result :=
      { state := ({} : Session).afresh { groupErrors := [(40, .ofNumber 1)] } others }
    let limit : Seconds := .ofDecimal 1 (-2)
    let step : Step Command := .act (.killTree 40 (some limit) (some limit))
    let moves := List.replicate 3 Move.tick
    let after := play machinery (move machinery before (.begin step)) moves
    let attempted := bouts (turnsOfStep machinery before step moves)
    (∃ time reason, after.tasks[before.tasks.size]? =
      some (.ended time (.result (.error (.cleanup 40 reason))))) ∧
    ∃ x ∈ before.state.system.table, x.pid = 43 ∧ ∃ sendings rest,
      attempted = (before.state.system, before.state.system.sendAll sendings) :: rest ∧
      .group 40 .term ∈ sendings ∧ .single x.ref .term ∈ sendings := by
  intro others before limit step moves after attempted
  have hbefore : Later machinery
      { state := ({} : Session).afresh { groupErrors := [(40, .ofNumber 1)] } others }
    before := .refl
  have hstep : step.command? = some (.killTree 40 (some limit) (some limit)) := rfl
  have hgroup : (before.state.system.table.find? 40).all (·.obstacles.group != some .denied) =
      true := by decide +kernel
  have hstatus : ∀ p ∈ candidates before.state.system 40,
      p.obstacles.status ≠ some .denied := by decide +kernel
  have hclear : ∀ failure, ¬ Barred before.state.system 40 failure := by
    intro failure hbarred
    cases hbarred with
    | group _ hx _ hdenied => simp [hx, hdenied] at hgroup
    | status hp hdenied => exact hstatus _ hp hdenied
  obtain ⟨hfails, hasks⟩ := (killTree_asks_unless_barred hbefore hstep moves).2 hclear
  refine ⟨?_, ?_⟩
  · have hfailed : (after.tasks[before.tasks.size]?.bind failure?).isSome = true := by
      decide +kernel
    obtain ⟨⟨time, failure⟩, hfailure⟩ := Option.isSome_iff_exists.mp hfailed
    obtain ⟨task, htask, hf⟩ := Option.bind_eq_some_iff.mp hfailure
    rw [failure?_eq_some_iff.mp hf] at htask
    obtain ⟨reason, rfl⟩ := hfails time failure htask
    exact ⟨time, reason, htask⟩
  · have hmember : ∃ x ∈ before.state.system.table, x.pid = 43 ∧ x.pgid = 40 ∧ x.zombie = false ∧
        x.obstacles.group = none ∧ x.obstacles.status = none := by decide +kernel
    have hposix : before.state.system.windows = false := by decide +kernel
    obtain ⟨x, hx, hpid, hpgid, halive, hxgroup, hxstatus⟩ := hmember
    exact ⟨x, hx, hpid, hasks hposix x hx hpgid halive hxgroup hxstatus⟩

/-- One process of the tree cannot be asked for its group, or for its status: the call fails in
another way than for members that are left, and the other member of the group, which nothing
protects, is never asked to end. -/
theorem killTree_stopped_by_refusal :
    let step : Step Command := .act (.killTree 40 none none)
    let unasked (others : List Birth) (failure : Failure) : Prop :=
      let before : Timeline Session Activity Result := { state := ({} : Session).afresh {} others }
      let after := move machinery before (.begin step)
      after.tasks[before.tasks.size]?.bind failure? = some (0, failure) ∧
        (∀ root reason, failure ≠ .cleanup root reason) ∧
        after.state.system.signals = #[] ∧
        ∃ x ∈ after.state.system.table, x.pgid = 40 ∧ x.zombie = false ∧ x.obstacles = {}
    unasked
      [{ spec := { pid := 40, ppid := 1, pgid := 40, obstacles := { group := some .denied } } },
       { spec := { pid := 41, ppid := 40, pgid := 40 } }] .notPermitted ∧
    unasked
      [{ spec := { pid := 40, ppid := 1, pgid := 40 } },
       { spec := { pid := 41, ppid := 40, pgid := 40, obstacles := { status := some .denied } } }]
      (.accessDenied 41) := by
  intro step unasked
  have hfirst : ∀ root reason, Failure.notPermitted ≠ .cleanup root reason := nofun
  have hsecond : ∀ root reason, Failure.accessDenied 41 ≠ .cleanup root reason := nofun
  exact ⟨⟨by decide +kernel, hfirst, by decide +kernel, by decide +kernel⟩,
    by decide +kernel, hsecond, by decide +kernel, by decide +kernel⟩

end Session

end Overseer
