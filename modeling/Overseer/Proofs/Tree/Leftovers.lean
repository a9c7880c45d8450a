import Overseer.Proofs.Tree.Ending

/-!
# Who is reported as left

A call that ends a tree and gives up reports those who were alive at its last look. That look was no
longer ago than the time between two looks; who has died since is still counted, and where all have
died the call fails all the same.
-/

namespace Overseer

open Overseer.Tree Number World Timeline

namespace Tree

variable {w : System} {pid : Int} {failure : Failure}

theorem isAlive_error {p : ProcessRef} (h : isAlive w p = .error failure) :
    failure = .accessDenied p.pid := by
  unfold isAlive at h
  split at h
  · split at h
    · cases h
    · cases h
    · exact (Except.error.inj h).symm
  · cases h

theorem survivors_error {ps : List ProcessRef} (h : survivors w ps = .error failure) :
    ∃ p ∈ ps, isAlive w p = .error failure := by
  induction ps with
  | nil => cases h
  | cons p ps ih =>
    rw [survivors] at h
    cases hp : isAlive w p with
    | error other =>
      rw [hp] at h
      cases h
      exact ⟨p, List.mem_cons_self, hp⟩
    | ok living =>
      cases hs : survivors w ps with
      | error other =>
        rw [hp, hs] at h
        cases h
        obtain ⟨q, hq, herror⟩ := ih hs
        exact ⟨q, List.mem_cons_of_mem p hq, herror⟩
      | ok others =>
        rw [hp, hs] at h
        cases h

theorem rootFamily_error (h : (rootFamily w pid).1 = .error failure) :
    failure = .notPermitted := by
  have hroot : isRoot w pid = .error failure := by
    unfold rootFamily at h
    split at h
    · cases h
    · cases h
    · split at h
      next hr =>
        cases h
        exact hr
      · cases h
      · split at h <;> cases h
  unfold isRoot at hroot
  split at hroot
  · cases hroot
  · split at hroot
    · cases hroot
    · cases hroot
    · exact (Except.error.inj hroot).symm

/-- That a member of a tree cannot be looked at is no failure to end the tree. -/
theorem members_error (h : (members w pid).1 = .error failure) :
    failure = .notPermitted ∨ ∃ p : ProcessRef, failure = .accessDenied p.pid := by
  unfold members at h
  split at h
  next other notes hfamily =>
    obtain rfl := Except.error.inj h
    exact .inl (rootFamily_error (congrArg Prod.fst hfamily))
  next family notes hfamily =>
    obtain ⟨p, -, hp⟩ := survivors_error h
    exact .inr ⟨p, isAlive_error hp⟩

section

variable {u : System} {tree : Termination} {found : List ProcessRef}
  {turns : List (Session × Session)} {time : Instant}

/-- A course that has failed has done so because members were left at its last look. -/
theorem Course.failed (h : Course w tree found turns u (.ended time (.result (.error failure)))) :
    ∃ turn ∈ turns, turn.2.now ≤ time ∧ time ≤ turn.2.now + lookInterval ∧
      found.filter turn.2.system.alive ≠ [] ∧
      failure = Termination.leftover tree.pid (found.filter turn.2.system.alive).length ∧
      w.Evolves turn.2.system ∧ turn.2.system.Evolves u := by
  cases h with
  | left _ hle hge hlook =>
    have hne := hlook.ne_nil
    obtain ⟨turn, hturn, rfl, rfl, hw, hu⟩ := hlook.seen
    exact ⟨turn, hturn, hle, hge, hne, rfl, hw, hu⟩

end

end Tree

namespace Session

def failure? : Task Activity Result → Option (Instant × Failure)
  | .ended time (.result (.error failure)) => some (time, failure)
  | _ => none

theorem failure?_eq_some_iff {task : Task Activity Result} {time : Instant} {failure : Failure} :
    failure? task = some (time, failure) ↔ task = .ended time (.result (.error failure)) := by
  unfold failure?
  split <;> simp_all

/-- When a call that ends a tree fails to end it, the number that it reports is that of the members
that were alive at its last look, and there were some. The look was in one of its turns, no longer
ago than the time between two looks. Whoever is alive now was alive then. -/
theorem killTree_reports_last_look {s : Session} {w : System} {others : List Birth}
    {before : Timeline Session Activity Result} {step : Step Command} {pid root : Int}
    {termLimit killLimit : Option Seconds} {moves : List (Move Command)} {time : Instant}
    {reason : String}
    (hbefore : Later machinery { state := s.afresh w others } before)
    (hstep : step.command? = some (.killTree pid termLimit killLimit))
    (hfailed : (play machinery (move machinery before (.begin step))
      moves).tasks[before.tasks.size]? =
      some (.ended time (.result (.error (.cleanup root reason))))) :
    ∃ found, (members before.state.system pid).1 = .ok found ∧
      ∃ turn ∈ turnsOfStep machinery before step moves,
        turn.2.now ≤ time ∧ time ≤ turn.2.now + lookInterval ∧
        found.filter turn.2.system.alive ≠ [] ∧
        .cleanup root reason =
          Termination.leftover pid (found.filter turn.2.system.alive).length ∧
        ∀ p ∈ found,
          (play machinery (move machinery before (.begin step)) moves).state.system.alive p =
          true → turn.2.system.alive p = true := by
  rcases course_or_nobody hbefore hstep moves with
    ⟨p, ps, task, hm, htask, ht, hcourse⟩ | ⟨-, -, since, hended⟩
  · obtain rfl := Option.some.inj (htask.symm.trans hfailed)
    obtain ⟨turn, hturn, hle, hge, hne, hfailure, hw, hu⟩ := hcourse.failed
    exact ⟨p :: ps, hm, turn, hturn, hle, hge, hne, hfailure, fun q hq =>
      (ht.evolves hw).alive_before hu hq⟩
  · -- a call that finds nobody may fail, but not so
    have hresult := hended.symm.trans hfailed
    cases hm : (members before.state.system pid).1 with
    | ok found =>
      rw [hm] at hresult
      cases hresult
    | error failure =>
      rw [hm] at hresult
      cases hresult
      rcases members_error hm with hother | ⟨p, hother⟩ <;> cases hother

/-- One of two members outlives its killing, the other one dies of it after the last look. -/
theorem killTree_reports_both :
    let others : List Birth :=
      [{ spec := { pid := 40, ppid := 1, pgid := 40, onTerm := none, onKill := none } },
       { spec := { pid := 41, ppid := 40, pgid := 40, onTerm := none
                   onKill := some (Instant.ofMillis 5) } }]
    let before : Timeline Session Activity Result := { state := ({} : Session).afresh {} others }
    let limit : Seconds := .ofDecimal 1 (-2)
    let step : Step Command := .act (.killTree 40 (some limit) (some limit))
    let moves := List.replicate 3 Move.tick
    ∃ found, (members before.state.system 40).1 = .ok found ∧
      ∃ turn ∈ turnsOfStep machinery before step moves,
        turn.2.now ≤ Instant.ofMillis 20 ∧ Instant.ofMillis 20 ≤ turn.2.now + lookInterval ∧
        .cleanup 40 "2 process(es) still alive after kill" =
          Termination.leftover 40 (found.filter turn.2.system.alive).length := by
  intro others before limit step moves
  have hbefore : Later machinery { state := ({} : Session).afresh {} others } before := .refl
  have hstep : step.command? = some (.killTree 40 (some limit) (some limit)) := rfl
  have hfailure : (play machinery (move machinery before (.begin step)) moves).tasks[
      before.tasks.size]?.bind failure? = some (Instant.ofMillis 20,
      .cleanup 40 "2 process(es) still alive after kill") := by decide +kernel
  obtain ⟨task, htask, hfailed⟩ := Option.bind_eq_some_iff.mp hfailure
  obtain ⟨found, hm, turn, hturn, hle, hge, -, hreport, -⟩ := killTree_reports_last_look hbefore
    hstep (htask.trans (congrArg some (failure?_eq_some_iff.mp hfailed)))
  exact ⟨found, hm, turn, hturn, hle, hge, hreport⟩

/-- The only member is killed and dies within five milliseconds, but the call gives up ten
milliseconds after its last look. -/
theorem killTree_counts_the_dead :
    let others : List Birth :=
      [{ spec := { pid := 40, ppid := 1, pgid := 40, onTerm := none
                   onKill := some (Instant.ofMillis 5) } }]
    let before : Timeline Session Activity Result := { state := ({} : Session).afresh {} others }
    let limit : Seconds := .ofDecimal 1 (-2)
    let step : Step Command := .act (.killTree 40 (some limit) (some limit))
    let after := play machinery (move machinery before (.begin step)) (List.replicate 3 .tick)
    after.tasks[before.tasks.size]? = some (.ended (Instant.ofMillis 20)
        (.result (.error (.cleanup 40 "1 process(es) still alive after kill")))) ∧
      after.state.now = Instant.ofMillis 20 ∧
      (∃ found, (members before.state.system 40).1 = .ok found ∧
        found.filter after.state.system.alive = []) ∧
      after.state.system.table = [] := by
  intro others before limit step after
  have hfailure : after.tasks[before.tasks.size]?.bind failure? = some (Instant.ofMillis 20,
      .cleanup 40 "1 process(es) still alive after kill") := by decide +kernel
  obtain ⟨task, htask, hfailed⟩ := Option.bind_eq_some_iff.mp hfailure
  refine ⟨htask.trans (congrArg some (failure?_eq_some_iff.mp hfailed)), by decide +kernel, ?_,
    by decide +kernel⟩
  exact ⟨(members before.state.system 40).1.toOption.getD [], by decide +kernel, by decide +kernel⟩

end Session

end Overseer
