import Overseer.Proofs.Tree.Descent
import Overseer.Proofs.Tree.Refusals

/-!
# Who exactly is found out

Three places are searched for the members of a tree, and each of them can fail: the root may be
impossible to open or to be asked for its group, it may not tell of its children, and others may not
tell of their groups. Whatever fails, what the other places tell is kept: the members found out are
the living among those that lead the tree (`Tree.Leads`), follow the root (`Tree.Follows`) or are in
the group (`Tree.Joins`), in this order and each of them once.
-/

namespace Overseer

open Overseer.Tree World Timeline

namespace Tree

/-- A process is found out as the root: it can be opened and, where there are groups, says that it
leads its own. -/
def Leads (w : System) (pid : Int) (x : Process) : Prop :=
  x.pid = pid ∧ x.obstacles.opening = none ∧
    (w.windows = true ∨ x.obstacles.group = none ∧ x.pgid = pid)

/-- A process is found out as a descendant of a root that tells of its children. -/
def Follows (w : System) (pid : Int) (x : Process) : Prop :=
  x.pid ≠ pid ∧ w.table.Descends pid x ∧
    ∃ root ∈ w.table, Leads w pid root ∧ root.obstacles.children = none

def Joins (w : System) (pid : Int) (x : Process) : Prop :=
  w.windows = false ∧ x.obstacles.group = none ∧ x.pgid = pid

instance (w : System) (pid : Int) (x : Process) : Decidable (Leads w pid x) :=
  inferInstanceAs (Decidable (_ ∧ _))

instance (w : System) (pid : Int) (x : Process) : Decidable (Follows w pid x) :=
  inferInstanceAs (Decidable (_ ∧ _))

instance (w : System) (pid : Int) (x : Process) : Decidable (Joins w pid x) :=
  inferInstanceAs (Decidable (_ ∧ _))

section

variable {w : System} {pid : Int} {root x : Process}

theorem filter_leads (hw : w.table.ByPid) (hx : root ∈ w.table) (h : Leads w pid root) :
    w.table.filter (Leads w pid ·) = [root] := by
  have hone : ∀ table : ProcessTable, table.ByPid → root ∈ table →
      table.filter (Leads w pid ·) = [root] := by
    intro table htable hmem
    induction table with
    | nil => cases hmem
    | cons q table ih =>
      obtain ⟨hq, hrest⟩ := List.pairwise_cons.mp htable
      rcases List.mem_cons.mp hmem with rfl | hmem
      · have hnone : table.filter (Leads w pid ·) = [] := by
          refine List.filter_eq_nil_iff.mpr fun y hy hleads => ?_
          have hpid := (of_decide_eq_true hleads).1
          exact absurd (h.1.trans hpid.symm) (Int.ne_of_lt (hq y hy))
        rw [List.filter_cons_of_pos (by simpa using h), hnone]
      · have hother : ¬ Leads w pid q := fun hleads =>
          absurd (hleads.1.trans h.1.symm) (Int.ne_of_lt (hq root hmem))
        rw [List.filter_cons_of_neg (by simpa using hother), ih hrest hmem]
  exact hone w.table hw hx

theorem descendants_eq_filter (hw : w.table.ByPid) (hx : root ∈ w.table) (h : Leads w pid root)
    (hchildren : root.obstacles.children = none) :
    w.table.descendants pid = w.table.filter (Follows w pid ·) := by
  refine List.filter_congr fun x hx' => ?_
  have hiff : x ∈ w.table ∧ _ ↔ x.pid ≠ pid ∧ w.table.Descends pid x :=
    List.mem_filter.symm.trans hw.mem_descendants_iff
  rw [Bool.eq_iff_iff, decide_eq_true_iff]
  constructor
  · intro hfound
    obtain ⟨hne, hdescends⟩ := hiff.mp ⟨hx', hfound⟩
    exact ⟨hne, hdescends, root, hx, h, hchildren⟩
  · rintro ⟨hne, hdescends, -⟩
    exact (hiff.mpr ⟨hne, hdescends⟩).2

theorem filter_eq_nil_of_not_leads (h : ∀ x ∈ w.table, ¬ Leads w pid x) :
    w.table.filter (Leads w pid ·) = [] ∧ w.table.filter (Follows w pid ·) = [] := by
  constructor
  · exact List.filter_eq_nil_iff.mpr fun x hx hleads => h x hx (of_decide_eq_true hleads)
  · refine List.filter_eq_nil_iff.mpr fun x _ hfollows => ?_
    obtain ⟨-, -, root, hroot, hleads, -⟩ := of_decide_eq_true hfollows
    exact h root hroot hleads

theorem isRoot_eq (hw : w.table.ByPid) (hx : x ∈ w.table) (hpid : x.pid = pid)
    (hasked : w.windows = false → x.obstacles.group ≠ some .denied) :
    isRoot w pid =
      .ok (decide (w.windows = true ∨ x.obstacles.group = none ∧ x.pgid = pid)) := by
  have hfind : w.table.find? pid = some x := hpid ▸ hw.find? hx
  unfold isRoot System.group
  cases hwin : w.windows with
  | true => simp
  | false =>
    have hgroup := hasked hwin
    rw [hfind, if_neg Bool.false_ne_true]
    rcases hg : x.obstacles.group with _ | refusal
    · by_cases hpgid : x.pgid = pid <;> simp [hg, hpgid]
    · cases refusal with
      | denied => exact absurd hg hgroup
      | absent => simp [hg]

theorem rootFamily_eq (hs : w.Sound) (hw : w.table.ByPid)
    (hasked : ∀ x ∈ w.table, x.pid = pid → w.windows = false → x.obstacles.group ≠ some .denied) :
    (rootFamily w pid).1 = .ok
      ((w.table.filter (Leads w pid ·) ++ w.table.filter (Follows w pid ·)).map (·.ref)) := by
  -- who follows follows a leader, so without one there is nobody
  have hnobody : (∀ x ∈ w.table, ¬ Leads w pid x) → .ok [] = Except.ok (ε := Failure)
      ((w.table.filter (Leads w pid ·) ++ w.table.filter (Follows w pid ·)).map (·.ref)) := by
    intro hnone
    obtain ⟨hleads, hfollows⟩ := filter_eq_nil_of_not_leads hnone
    rw [hleads, hfollows]
    rfl
  unfold rootFamily System.openProcess
  cases hfind : w.table.find? pid with
  | none =>
    refine hnobody fun x hx hleads => ?_
    have hsome := hleads.1 ▸ hw.find? hx
    rw [hfind] at hsome
    cases hsome
  | some r =>
    obtain ⟨hr, hpid⟩ := ProcessTable.find?_eq_some hfind
    have honly : ∀ x ∈ w.table, Leads w pid x → x = r := fun x hx hleads =>
      hw.eq_of_pid hx hr (hleads.1.trans hpid.symm)
    dsimp only
    cases hopening : r.obstacles.opening with
    | some refusal =>
      have hnone : ∀ x ∈ w.table, ¬ Leads w pid x := fun x hx hleads => by
        have hopen := hleads.2.1
        rw [honly x hx hleads, hopening] at hopen
        cases hopen
      cases refusal <;> exact hnobody hnone
    | none =>
      dsimp only
      rw [isRoot_eq hw hr hpid (hasked r hr hpid)]
      by_cases hrooted : w.windows = true ∨ r.obstacles.group = none ∧ r.pgid = pid
      · have hleads : Leads w pid r := ⟨hpid, hopening, hrooted⟩
        rw [decide_eq_true hrooted, filter_leads hw hr hleads]
        have hrunning : w.isRunning r.ref = true :=
          Option.isSome_iff_exists.mpr ⟨r, hs.deref? hr⟩
        have hpid' : r.ref.pid = pid := hpid
        unfold System.descendants
        cases hchildren : r.obstacles.children with
        | none =>
          have hbelow := descendants_eq_filter hw hr hleads hchildren
          have hc : r.ref.obstacles.children = none := hchildren
          rw [hc]
          dsimp only
          rw [if_pos hrunning, hpid', hbelow]
          rfl
        | some refusal =>
          have hc : r.ref.obstacles.children = some refusal := hchildren
          have hnone : w.table.filter (Follows w pid ·) = [] := by
            refine List.filter_eq_nil_iff.mpr fun x _ hfollows => ?_
            obtain ⟨-, -, root, hroot, hroots, htold⟩ := of_decide_eq_true hfollows
            rw [honly root hroot hroots, hchildren] at htold
            cases htold
          rw [hc, hnone]
          cases refusal <;> rfl
      · rw [decide_eq_false hrooted]
        exact hnobody fun x hx hleads => hrooted (honly x hx hleads ▸ hleads.2.2)

/-- Of some processes with different pids those are added whose pids are new. -/
theorem merge_eq_append {first second : List ProcessRef} (h : (second.map (·.pid)).Nodup) :
    merge first second = first ++ second.filter fun p => !first.any (·.pid == p.pid) := by
  unfold merge
  induction second generalizing first with
  | nil => simp
  | cons q second ih =>
    obtain ⟨hnew, hrest⟩ := List.nodup_cons.mp h
    rw [List.foldl_cons]
    by_cases hany : first.any (·.pid == q.pid) = true
    · rw [if_pos hany, ih hrest, List.filter_cons_of_neg (by simp [hany])]
    · rw [if_neg hany, ih hrest, List.filter_cons_of_pos (by simpa using hany), List.append_assoc]
      have hsame : second.filter (fun p => !(first ++ [q]).any (·.pid == p.pid)) =
          second.filter fun p => !first.any (·.pid == p.pid) := by
        refine List.filter_congr fun p hp => ?_
        have hne : (q.pid == p.pid) = false := by
          refine Bool.eq_false_iff.mpr fun heq => hnew ?_
          exact List.mem_map.mpr ⟨p, hp, (eq_of_beq heq).symm⟩
        simp [hne]
      rw [hsame]
      rfl

theorem nodup_pids_filter (hw : w.table.ByPid) (keep : Process → Bool) :
    ((w.table.filter keep).map (·.pid)).Nodup := by
  have hpart : ProcessTable.ByPid (w.table.filter keep) := List.Pairwise.filter _ hw
  exact List.Pairwise.map _ (fun _ _ hlt => Int.ne_of_lt hlt) hpart

theorem nodup_pids_append (hw : w.table.ByPid) {first second : List Process}
    (hfirst : (first.map (·.pid)).Nodup) (hsecond : (second.map (·.pid)).Nodup)
    (hsub : ∀ x ∈ first, x ∈ w.table) (hnew : ∀ x ∈ second, x ∈ w.table ∧ x ∉ first) :
    ((first ++ second).map (·.pid)).Nodup := by
  rw [List.map_append, List.nodup_append]
  refine ⟨hfirst, hsecond, fun a ha b hb hab => ?_⟩
  obtain ⟨x, hx, rfl⟩ := List.mem_map.mp ha
  obtain ⟨y, hy, rfl⟩ := List.mem_map.mp hb
  obtain ⟨hmem, hother⟩ := hnew y hy
  exact hother (hw.eq_of_pid (hsub x hx) hmem hab ▸ hx)

theorem any_pid_eq (hw : w.table.ByPid) (hx : x ∈ w.table) :
    ((w.table.filter (Leads w pid ·) ++ w.table.filter (Follows w pid ·)).map (·.ref)).any
        (·.pid == x.ref.pid) =
      decide (Leads w pid x ∨ Follows w pid x) := by
  rw [Bool.eq_iff_iff, List.any_eq_true, decide_eq_true_iff]
  constructor
  · rintro ⟨p, hp, hpid⟩
    obtain ⟨y, hy, rfl⟩ := List.mem_map.mp hp
    have hsame : ∀ z ∈ w.table, z.ref.pid = x.ref.pid → z = x := fun z hz hzpid =>
      hw.eq_of_pid hz hx hzpid
    rcases List.mem_append.mp hy with hy | hy
    · obtain ⟨hmem, hleads⟩ := List.mem_filter.mp hy
      exact .inl (hsame y hmem (eq_of_beq hpid) ▸ of_decide_eq_true hleads)
    · obtain ⟨hmem, hfollows⟩ := List.mem_filter.mp hy
      exact .inr (hsame y hmem (eq_of_beq hpid) ▸ of_decide_eq_true hfollows)
  · intro hmember
    refine ⟨x.ref, List.mem_map.mpr ⟨x, ?_, rfl⟩, beq_self_eq_true _⟩
    rcases hmember with hleads | hfollows
    · exact List.mem_append_left _ (List.mem_filter.mpr ⟨hx, decide_eq_true hleads⟩)
    · exact List.mem_append_right _ (List.mem_filter.mpr ⟨hx, decide_eq_true hfollows⟩)

theorem candidates_eq (hs : w.Sound) (hw : w.table.ByPid)
    (hasked : ∀ x ∈ w.table, x.pid = pid → w.windows = false → x.obstacles.group ≠ some .denied) :
    candidates w pid =
      (w.table.filter (Leads w pid ·) ++ w.table.filter (Follows w pid ·) ++
        w.table.filter fun x =>
          Joins w pid x ∧ ¬ (Leads w pid x ∨ Follows w pid x)).map (·.ref) := by
  unfold candidates
  rw [rootFamily_eq hs hw hasked]
  dsimp only [Except.toOption, Option.getD_some]
  cases hwin : w.windows with
  | true =>
    have hnone : w.table.filter
        (fun x => decide (Joins w pid x ∧ ¬ (Leads w pid x ∨ Follows w pid x))) = [] :=
      List.filter_eq_nil_iff.mpr fun x _ hjoins => by
        have hposix := (of_decide_eq_true hjoins).1.1
        rw [hwin] at hposix
        cases hposix
    rw [if_pos rfl, hnone, List.append_nil]
  | false =>
    have hscan : (w.table.filter fun x => x.obstacles.group.isNone && x.pgid == pid) =
        w.table.filter (Joins w pid ·) := by
      refine List.filter_congr fun x _ => ?_
      cases hg : x.obstacles.group <;> simp [Joins, hwin, hg, Bool.beq_eq_decide_eq]
    have hnodup : (((w.table.filter (Joins w pid ·)).map (·.ref)).map (·.pid)).Nodup := by
      rw [List.map_map]
      exact nodup_pids_filter hw _
    rw [if_neg Bool.false_ne_true, groupMembers_eq hw, hscan, merge_eq_append hnodup,
      List.filter_map, List.filter_filter, ← List.map_append]
    congr 2
    refine List.filter_congr fun x hx => ?_
    rw [Function.comp, any_pid_eq hw hx, ← decide_not, ← Bool.decide_and]
    exact decide_eq_decide.mpr And.comm

theorem alive_ref (hs : w.Sound) (hx : x ∈ w.table) : w.alive x.ref = !x.zombie := by
  have hderef : w.table.deref? x.ref.serial = some x := hs.deref? hx
  rw [System.alive, hderef]
  rfl

end

end Tree

namespace Session

/-- Whatever is refused, as long as the root does not refuse to tell of its group and everybody's
status is told, those found out are exactly the living members of the tree: the root, if it can be
opened and leads its group, then its descendants, if it tells of them, and then the rest of the
group, as far as it tells of itself. Each is found once, and no refusal hides another one who is in
the group and says so. Where there are no groups, the root needs no group and nobody is found by
one. -/
theorem members_exact {s : Session} {w : System} {others : List Birth}
    {before : Timeline Session Activity Result} {pid : Int}
    (hbefore : Later machinery { state := s.afresh w others } before)
    (hstatus : ∀ x ∈ before.state.system.table, x.obstacles.status = none)
    (hasked : ∀ x ∈ before.state.system.table, x.pid = pid →
      before.state.system.windows = false → x.obstacles.group ≠ some .denied) :
    let w := before.state.system
    let living := w.table.filter (!·.zombie)
    let root := living.filter (Leads w pid ·)
    let below := living.filter (Follows w pid ·)
    let rest := living.filter fun x => Joins w pid x ∧ ¬ (Leads w pid x ∨ Follows w pid x)
    (members w pid).1 = .ok ((root ++ below ++ rest).map (·.ref)) ∧
    ((root ++ below ++ rest).map (·.pid)).Nodup ∧
    (∀ x ∈ living, x ∈ root ++ below ++ rest ↔
      Leads w pid x ∨ Follows w pid x ∨ Joins w pid x) := by
  intro w living root below rest
  have hs : w.Sound := sound_later hbefore
  have hw : w.table.ByPid := byPid_later hbefore
  have hmem : ∀ x ∈ living,
      x ∈ root ++ below ++ rest ↔ Leads w pid x ∨ Follows w pid x ∨ Joins w pid x := by
    intro x hx
    simp only [root, below, rest, List.mem_append, List.mem_filter, hx, true_and,
      decide_eq_true_iff]
    by_cases hleads : Leads w pid x <;> by_cases hfollows : Follows w pid x <;>
      simp [hleads, hfollows]
  refine ⟨?_, ?_, hmem⟩
  · have hfamily := rootFamily_eq hs hw hasked
    have htold : ∀ p ∈ candidates w pid, p.obstacles.status = none := by
      rw [candidates_eq hs hw hasked]
      intro p hp
      obtain ⟨x, hx, rfl⟩ := List.mem_map.mp hp
      simp only [List.mem_append, List.mem_filter] at hx
      exact hstatus x (by tauto)
    -- the look at the candidates leaves of each part those who are alive
    have hpart : ∀ P : Process → Bool,
        (w.table.filter P).filter (w.alive ∘ (·.ref)) = living.filter P := by
      intro P
      rw [List.filter_filter, List.filter_filter]
      refine List.filter_congr fun x hx => ?_
      rw [Function.comp, alive_ref hs hx, Bool.and_comm]
    rw [members_of_family hfamily, survivors_eq htold, candidates_eq hs hw hasked, List.filter_map,
      List.filter_append, List.filter_append, hpart, hpart, hpart]
  · have hnodup : ∀ P : Process → Bool, ((living.filter P).map (·.pid)).Nodup := fun P => by
      rw [List.filter_filter]
      exact nodup_pids_filter hw _
    have hsub : ∀ (P : Process → Bool), ∀ x ∈ living.filter P, x ∈ w.table := fun P x hx =>
      (List.mem_filter.mp (List.mem_filter.mp hx).1).1
    -- pids are unique in the table, so it is enough that no process is in two parts
    have hfollowers : ∀ x ∈ below, x ∈ w.table ∧ x ∉ root := by
      refine fun x hx => ⟨hsub _ x hx, fun hr => ?_⟩
      have hfollows : Follows w pid x := of_decide_eq_true (List.mem_filter.mp hx).2
      have hleads : Leads w pid x := of_decide_eq_true (List.mem_filter.mp hr).2
      exact hfollows.1 hleads.1
    have hothers : ∀ x ∈ rest, x ∈ w.table ∧ x ∉ root ++ below := by
      refine fun x hx => ⟨hsub _ x hx, fun hr => ?_⟩
      have hjoins := (of_decide_eq_true (List.mem_filter.mp hx).2).2
      rcases List.mem_append.mp hr with hr | hr
      · exact hjoins (.inl (of_decide_eq_true (List.mem_filter.mp hr).2))
      · exact hjoins (.inr (of_decide_eq_true (List.mem_filter.mp hr).2))
    refine nodup_pids_append hw ?_ (hnodup _) ?_ hothers
    · exact nodup_pids_append hw (hnodup _) (hnodup _) (hsub _) hfollowers
    · intro x hx
      rcases List.mem_append.mp hx with hx | hx
      · exact hsub _ x hx
      · exact hsub _ x hx

/-- The root is a zombie whose child has left the group. Its grandchild does not tell of its group
and is found all the same; another one who does not is not. -/
theorem members_exact_of_zombie_root :
    let others : List Birth :=
      [{ spec := { pid := 40, ppid := 1, pgid := 40, zombie := true } },
       { spec := { pid := 41, ppid := 40, pgid := 7, obstacles := { opening := some .denied } } },
       { spec := { pid := 42, ppid := 41, pgid := 40, obstacles := { group := some .denied } } },
       { spec := { pid := 43, ppid := 1, pgid := 40, obstacles := { children := some .denied } } },
       { spec := { pid := 44, ppid := 43, pgid := 7 } },
       { spec := { pid := 45, ppid := 1, pgid := 40, obstacles := { group := some .absent } } }]
    let before : Timeline Session Activity Result := { state := ({} : Session).afresh {} others }
    (∀ x ∈ before.state.system.table, x.obstacles.status = none) ∧
    (∀ x ∈ before.state.system.table, x.pid = 40 → before.state.system.windows = false →
      x.obstacles.group ≠ some .denied) ∧
    ∃ found, (members before.state.system 40).1 = .ok found ∧ found.map (·.pid) = [41, 42, 43] := by
  intro others before
  have hbefore : Later machinery { state := ({} : Session).afresh {} others } before := .refl
  have hstatus : ∀ x ∈ before.state.system.table, x.obstacles.status = none := by decide +kernel
  have hasked : ∀ x ∈ before.state.system.table, x.pid = 40 →
      before.state.system.windows = false → x.obstacles.group ≠ some .denied := by decide +kernel
  obtain ⟨hfound, -, -⟩ := members_exact hbefore hstatus hasked
  exact ⟨hstatus, hasked, _, hfound, by decide +kernel⟩

end Session

end Overseer
