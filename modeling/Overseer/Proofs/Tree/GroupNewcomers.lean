import Overseer.Proofs.Tree.Targets

/-!
# Who is left in a group

The members of a tree are found out once, when the call that ends it begins. Every live process of
the group is among them then, if it can be asked for its group and its status
(`Tree.mem_members_of_group`), and a process never changes its group (`System.Evolves.origin`). So
when the call succeeds, those who are alive in the group have come to it since. Whoever is born into
the group while the call waits is not ended.
-/

namespace Overseer

open Overseer.Tree Number World Timeline

namespace World

def livingIn (s : Nat) (pgid : Int) (x : Process) : Bool := living s x && x.pgid == pgid

theorem trait_livingIn (s : Nat) (pgid : Int) : Trait s (livingIn s pgid) (numbered s) where
  serial _ h := eq_of_beq h
  born x h := (trait_living s).born x (Bool.and_eq_true_iff.mp h).1
  bury x h := by simp [livingIn, living] at h
  term _ := rfl
  kill _ := rfl

/-- A process that is alive and has been known for some time was alive all that time, in the same
group. -/
theorem System.Evolves.origin {a b : System} (h : a.Evolves b) {x : Process}
    (hk : a.Known x.serial) (hx : x ∈ b.table) (halive : x.zombie = false) :
    ∃ y ∈ a.table, y.serial = x.serial ∧ y.pgid = x.pgid ∧ y.zombie = false := by
  have hle := h.tally (trait_livingIn x.serial x.pgid)
  have hpos : 0 < b.table.countP (livingIn x.serial x.pgid) :=
    List.countP_pos_iff.mpr ⟨x, hx, by simp [livingIn, living, halive]⟩
  -- who has been there is not to be born: what is counted later was counted before
  obtain ⟨hlt, hnone⟩ := hk
  have hawaited : awaited (numbered x.serial) a.agenda = 0 := (Nat.add_eq_zero_iff.mp hnone).2
  rw [if_neg fun hn => Nat.not_lt.mpr hn.1 hlt, System.tally, System.tally, hawaited] at hle
  have hcount : 0 < a.table.countP (livingIn x.serial x.pgid) := by omega
  obtain ⟨y, hy, hliving⟩ := List.countP_pos_iff.mp hcount
  obtain ⟨⟨hserial, hzombie⟩, hpgid⟩ :
      (y.serial = x.serial ∧ y.zombie = false) ∧ y.pgid = x.pgid := by
    simpa [livingIn, living] using hliving
  exact ⟨y, hy, hserial, hpgid, hzombie⟩

end World

namespace Tree

variable {w : System} {pid : Int} {found : List ProcessRef} {x : Process}

theorem mem_merge_of_mem {first second : List ProcessRef} {p : ProcessRef} (h : p ∈ first) :
    p ∈ merge first second := by
  unfold merge
  induction second generalizing first with
  | nil => exact h
  | cons q second ih =>
    refine ih ?_
    dsimp only
    split
    · exact h
    · exact List.mem_append_left [q] h

/-- A process that is to be merged is there afterwards, or another one with its pid. -/
theorem exists_mem_merge (first : List ProcessRef) {second : List ProcessRef} {p : ProcessRef}
    (h : p ∈ second) : ∃ q ∈ merge first second, q.pid = p.pid := by
  induction second generalizing first with
  | nil => cases h
  | cons r second ih =>
    rcases List.mem_cons.mp h with rfl | h
    · by_cases hany : first.any (·.pid == p.pid) = true
      · obtain ⟨q, hq, hpid⟩ := List.any_eq_true.mp hany
        exact ⟨q, mem_merge_of_mem hq, eq_of_beq hpid⟩
      · refine ⟨p, ?_, rfl⟩
        have hfirst : p ∈ merge (first ++ [p]) second :=
          mem_merge_of_mem (List.mem_append_right first List.mem_cons_self)
        unfold merge at hfirst ⊢
        rw [List.foldl_cons, if_neg hany]
        exact hfirst
    · exact ih _ h

/-- Every live process of the group is found out, if it can be asked for its group and its
status. -/
theorem mem_members_of_group (hs : w.Sound) (hw : w.table.ByPid) (hposix : w.windows = false)
    (h : (members w pid).1 = .ok found) (hx : x ∈ w.table) (hpgid : x.pgid = pid)
    (halive : x.zombie = false) (hgroup : x.obstacles.group = none)
    (hstatus : x.obstacles.status = none) : x.ref ∈ found := by
  unfold members at h
  split at h
  · cases h
  next family notes hfamily =>
    have hroot : (rootFamily w pid).1 = .ok family := congrArg Prod.fst hfamily
    have hscan : x.ref ∈ groupMembers w pid := by
      have hasked : w.group x.ref.pid = .ok pid :=
        group_eq_ok_iff.mpr ⟨x, hw.find? hx, hgroup, hpgid⟩
      refine List.mem_filter.mpr ⟨List.mem_map.mpr ⟨x, hx, rfl⟩, ?_⟩
      rw [hasked]
      exact beq_self_eq_true pid
    have hall : x.ref ∈ merge family (groupMembers w pid) := by
      -- whoever is there with this pid is the same process
      obtain ⟨q, hq, hpid⟩ := exists_mem_merge family hscan
      have htable : ∃ y ∈ w.table, y.ref = q := by
        rcases mem_merge hq with hq | hq
        · exact (mem_rootFamily hw hroot hq).imp fun y hy => ⟨hy.1, hy.2.1⟩
        · exact (mem_groupMembers hw hq).imp fun y hy => ⟨hy.1, hy.2.1⟩
      obtain ⟨y, hy, rfl⟩ := htable
      exact hw.eq_of_pid hy hx hpid ▸ hq
    rw [hposix] at h
    rcases mem_survivors h hall with hfound | hdead
    · exact hfound
    · rw [isAlive_eq hstatus, System.alive] at hdead
      have hderef : w.table.deref? x.ref.serial = some x := hs.deref? hx
      simp [hderef, halive] at hdead

/-- When all who were found are dead, whoever is alive in the group has come to it since. -/
theorem newcomers {after : System} (hs : w.Sound) (hw : w.table.ByPid) (hposix : w.windows = false)
    (hclear : ∀ x ∈ w.table, x.pgid = pid → x.obstacles.group = none ∧ x.obstacles.status = none)
    (hm : (members w pid).1 = .ok found) (he : w.Evolves after)
    (hdead : ∀ p ∈ found, after.Dead p) :
    ∀ x ∈ after.table, x.pgid = pid → x.zombie = false → ∀ y ∈ w.table, y.serial ≠ x.serial := by
  intro x hx hpgid halive y hy hserial
  obtain ⟨z, hz, hzserial, hzpgid, hzalive⟩ := he.origin (hserial ▸ hs.known hy) hx halive
  have hzgroup := hzpgid.trans hpgid
  obtain ⟨hgroup, hstatus⟩ := hclear z hz hzgroup
  have hfound := mem_members_of_group hs hw hposix hm hz hzgroup hzalive hgroup hstatus
  have hsame : after.table.deref? z.serial = some x := hzserial ▸ (he.sound hs).deref? hx
  have hzombie := hdead z.ref hfound x hsame
  rw [halive] at hzombie
  cases hzombie

end Tree

namespace Session

/-- When a call that ends a tree succeeds, those who were found are gone. -/
theorem gone_of_answer {s : Session} {w : System} {others : List Birth}
    {before : Timeline Session Activity Result} {step : Step Command} {pid : Int}
    {termLimit killLimit : Option Seconds} {moves : List (Move Command)} {time : Instant}
    {answer : Answer}
    (hbefore : Later machinery { state := s.afresh w others } before)
    (hstep : step.command? = some (.killTree pid termLimit killLimit))
    (hdone : (play machinery (move machinery before (.begin step))
      moves).tasks[before.tasks.size]? =
      some (.ended time (.result (.ok answer)))) :
    ∃ found, (members before.state.system pid).1 = .ok found ∧ ∀ p ∈ found,
      (play machinery (move machinery before (.begin step)) moves).state.system.Gone p.serial := by
  rcases course_or_nobody hbefore hstep moves with
    ⟨p, ps, task, hm, htask, -, hcourse⟩ | ⟨hnobody, -, since, hended⟩
  · obtain rfl := Option.some.inj (htask.symm.trans hdone)
    cases hcourse with
    | gone _ hgone => exact ⟨p :: ps, hm, hgone⟩
  · have hresult := hended.symm.trans hdone
    cases hm : (members before.state.system pid).1 with
    | error failure =>
      rw [hm] at hresult
      cases hresult
    | ok found =>
      cases found with
      | nil => exact ⟨[], rfl, List.forall_mem_nil _⟩
      | cons p ps => exact absurd hm (hnobody p ps)

/-- When a call that ends a tree succeeds, no process that was in the group at its beginning is
alive, if each could be asked for its group and its status: those that are alive in the group have
come to it since. -/
theorem killTree_leaves_newcomers {s : Session} {w : System} {others : List Birth}
    {before : Timeline Session Activity Result} {step : Step Command} {pid : Int}
    {termLimit killLimit : Option Seconds} {moves : List (Move Command)} {time : Instant}
    {answer : Answer}
    (hbefore : Later machinery { state := s.afresh w others } before)
    (hstep : step.command? = some (.killTree pid termLimit killLimit))
    (hposix : before.state.system.windows = false)
    (hclear : ∀ x ∈ before.state.system.table, x.pgid = pid →
      x.obstacles.group = none ∧ x.obstacles.status = none)
    (hdone : (play machinery (move machinery before (.begin step))
      moves).tasks[before.tasks.size]? =
      some (.ended time (.result (.ok answer)))) :
    ∀ x ∈ (play machinery (move machinery before (.begin step)) moves).state.system.table,
      x.pgid = pid → x.zombie = false →
        ∀ y ∈ before.state.system.table, y.serial ≠ x.serial := by
  have hlater :
      Later machinery before (play machinery (move machinery before (.begin step)) moves) :=
    ((Later.launch step .refl).settle).play moves
  obtain ⟨found, hm, hgone⟩ := gone_of_answer hbefore hstep hdone
  exact newcomers (sound_later hbefore) (byPid_later hbefore) hposix hclear hm
    (evolves_later hlater) fun p hp _ hx => (hgone p hp).dead hx

def forking : List Birth :=
  [{ spec := { pid := 40, ppid := 1, pgid := 40, onTerm := some (Instant.ofMillis 20) } },
   { spec := { pid := 41, ppid := 40, pgid := 40 }, delay := Instant.ofMillis 10 }]

/-- Whoever is alive in the group of the process that forked was not there at the beginning. -/
theorem killTree_leaves_newborn :
    let before : Timeline Session Activity Result := { state := ({} : Session).afresh {} forking }
    let step : Step Command := .act (.killTree 40 none none)
    let moves := List.replicate 3 Move.tick
    ∃ time answer, (play machinery (move machinery before (.begin step)) moves).tasks[
        before.tasks.size]? = some (.ended time (.result (.ok answer))) ∧
      ∀ x ∈ (play machinery (move machinery before (.begin step)) moves).state.system.table,
        x.pgid = 40 → x.zombie = false → ∀ y ∈ before.state.system.table, y.serial ≠ x.serial := by
  intro before step moves
  have hbefore : Later machinery { state := ({} : Session).afresh {} forking } before := .refl
  have hstep : step.command? = some (.killTree 40 none none) := rfl
  have hposix : before.state.system.windows = false := by decide +kernel
  have hclear : ∀ x ∈ before.state.system.table, x.pgid = 40 →
      x.obstacles.group = none ∧ x.obstacles.status = none := by decide +kernel
  have hanswered : (play machinery (move machinery before (.begin step)) moves).tasks[
      before.tasks.size]?.any isAnswered = true := by decide +kernel
  obtain ⟨task, htask, hanswer⟩ := (Option.any_eq_true _ _).mp hanswered
  obtain ⟨time, answer, rfl⟩ := isAnswered_iff.mp hanswer
  exact ⟨time, answer, htask, killTree_leaves_newcomers hbefore hstep hposix hclear htask⟩

/-- The child of the process that forked is alive when the call has succeeded, although nothing has
been refused. -/
theorem killTree_misses_newborn :
    let before : Timeline Session Activity Result := { state := ({} : Session).afresh {} forking }
    let step : Step Command := .act (.killTree 40 none none)
    let after := play machinery (move machinery before (.begin step)) (List.replicate 3 .tick)
    (∃ time answer, after.tasks[before.tasks.size]? = some (.ended time (.result (.ok answer)))) ∧
      before.state.system.windows = false ∧ before.state.system.groupErrors = [] ∧
      (∀ b ∈ forking, b.spec.obstacles = {}) ∧
      ∃ x ∈ after.state.system.table, x.pgid = 40 ∧ x.zombie = false := by
  intro before step after
  have hanswered : after.tasks[before.tasks.size]?.any isAnswered = true := by decide +kernel
  obtain ⟨task, htask, hanswer⟩ := (Option.any_eq_true _ _).mp hanswered
  obtain ⟨time, answer, rfl⟩ := isAnswered_iff.mp hanswer
  exact ⟨⟨time, answer, htask⟩, by decide +kernel, by decide +kernel, by decide +kernel,
    by decide +kernel⟩

end Session

end Overseer
