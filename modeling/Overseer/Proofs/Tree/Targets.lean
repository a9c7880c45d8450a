import Overseer.Proofs.Tree.Ending

/-!
# Who is signalled

The members of a tree come from three places: the root, its descendants and the scan for its group.
Whoever is among them is alive when they are found out and belongs to the tree of the pid
(`Tree.Belongs`); and nobody else is signalled by the call that ends the tree, whatever fails.
-/

namespace Overseer

open Overseer.Tree Number World Timeline

namespace World.ProcessTable

inductive Descends (table : ProcessTable) (pid : Int) : Process → Prop where
  | child {x : Process} : x ∈ table → x.ppid = pid → Descends table pid x
  | step {x y : Process} : Descends table pid y → x ∈ table → x.ppid = y.pid →
      Descends table pid x

variable {table : ProcessTable} {pid : Int} {x : Process}

theorem Descends.mem (h : Descends table pid x) : x ∈ table := by
  cases h with
  | child hx => exact hx
  | step _ hx => exact hx

theorem mem_childrenOf_iff {pids : List Int} :
    x ∈ table.childrenOf pids ↔ x ∈ table ∧ x.ppid ∈ pids := by
  simp [childrenOf]

/-- The pids of a family are those at its head and those of descendants. -/
theorem mem_family {pids : List Int} {q : Int} (generations : Nat)
    (hpids : ∀ q ∈ pids, q = pid ∨ ∃ x, Descends table pid x ∧ x.pid = q)
    (hq : q ∈ table.family generations pids) :
    q = pid ∨ ∃ x, Descends table pid x ∧ x.pid = q := by
  -- what is known of the head carries over to the children that a round adds to it
  induction generations generalizing pids with
  | zero => exact hpids q hq
  | succ generations ih =>
    refine ih (fun r hr => ?_) hq
    rcases List.mem_append.mp hr with hr | hr
    · exact hpids r hr
    · obtain ⟨x, hx, rfl⟩ := List.mem_map.mp (List.mem_filter.mp hr).1
      obtain ⟨hmem, hparent⟩ := mem_childrenOf_iff.mp hx
      rcases hpids x.ppid hparent with hroot | ⟨y, hy, hpid⟩
      · exact .inr ⟨x, .child hmem hroot, rfl⟩
      · exact .inr ⟨x, .step hy hmem hpid.symm, rfl⟩

theorem ByPid.descends (h : table.ByPid) (hx : x ∈ table.descendants pid) :
    Descends table pid x := by
  obtain ⟨hmem, hpids⟩ := List.mem_filter.mp hx
  obtain ⟨hne, hfamily⟩ : x.pid ≠ pid ∧ x.pid ∈ table.family table.length [pid] := by
    simpa using hpids
  have hhead : ∀ q ∈ [pid], q = pid ∨ ∃ x, Descends table pid x ∧ x.pid = q := fun q hq =>
    .inl (List.mem_singleton.mp hq)
  rcases mem_family table.length hhead hfamily with hroot | ⟨y, hy, hpid⟩
  · exact absurd hroot hne
  · exact h.eq_of_pid hy.mem hmem hpid ▸ hy

end World.ProcessTable

namespace Tree

/-- Whether a pid is the root of a tree: where there are groups, a process leads its own group
under this pid. -/
def Rooted (w : System) (pid : Int) : Prop :=
  w.windows = true ∨ ∃ r ∈ w.table, r.pid = pid ∧ r.pgid = pid

instance (w : System) (pid : Int) : Decidable (Rooted w pid) := inferInstanceAs (Decidable (_ ∨ _))

/-- A process belongs to the tree of a pid: it is in the group, where there are groups, or it is the
root or a descendant of the root. -/
def Belongs (w : System) (pid : Int) (x : Process) : Prop :=
  (w.windows = false ∧ x.pgid = pid) ∨
    (Rooted w pid ∧ (x.pid = pid ∨ w.table.Descends pid x))

section

variable {w : System} {pid : Int} {found : List ProcessRef} {p : ProcessRef}

theorem group_eq_ok_iff {g : Int} :
    w.group pid = .ok g ↔
      ∃ x, w.table.find? pid = some x ∧ x.obstacles.group = none ∧ x.pgid = g := by
  unfold System.group
  cases w.table.find? pid with
  | none => simp
  | some x => cases ho : x.obstacles.group <;> simp [ho]

theorem Rooted.of_isRoot (h : isRoot w pid = .ok true) : Rooted w pid := by
  unfold isRoot at h
  by_cases hw : w.windows = true
  · exact .inl hw
  · rw [if_neg hw] at h
    cases hg : w.group pid with
    | error refusal =>
      rw [hg] at h
      cases refusal <;> cases h
    | ok g =>
      rw [hg] at h
      obtain ⟨r, hr, -, rfl⟩ := group_eq_ok_iff.mp hg
      obtain ⟨hmem, hpid⟩ := ProcessTable.find?_eq_some hr
      exact .inr ⟨r, hmem, hpid, eq_of_beq (Except.ok.inj h)⟩

theorem openProcess_eq_ok (h : w.openProcess pid = .ok p) :
    ∃ x ∈ w.table, x.ref = p ∧ x.pid = pid := by
  unfold System.openProcess at h
  cases hf : w.table.find? pid with
  | none =>
    rw [hf] at h
    cases h
  | some x =>
    obtain ⟨hmem, hpid⟩ := ProcessTable.find?_eq_some hf
    rw [hf] at h
    dsimp only at h
    split at h
    · cases h
    · exact ⟨x, hmem, Except.ok.inj h, hpid⟩

theorem descends_of_mem_descendants {root : ProcessRef} (hw : w.table.ByPid)
    (h : w.descendants root = .ok found) (hp : p ∈ found) :
    ∃ x, w.table.Descends root.pid x ∧ x.ref = p := by
  unfold System.descendants at h
  split at h
  · cases h
  · split at h
    · obtain ⟨x, hx, rfl⟩ := List.mem_map.mp (Except.ok.inj h ▸ hp)
      exact ⟨x, hw.descends hx, rfl⟩
    · cases h

theorem mem_rootFamily (hw : w.table.ByPid) (h : (rootFamily w pid).1 = .ok found)
    (hp : p ∈ found) :
    ∃ x ∈ w.table, x.ref = p ∧ Rooted w pid ∧ (x.pid = pid ∨ w.table.Descends pid x) := by
  unfold rootFamily at h
  cases hopen : w.openProcess pid with
  | error refusal =>
    rw [hopen] at h
    cases refusal <;> cases h <;> cases hp
  | ok root =>
    obtain ⟨r, hr, rfl, hpid⟩ := openProcess_eq_ok hopen
    rw [hopen] at h
    dsimp only at h
    split at h
    · cases h
    · cases h
      cases hp
    next hroot =>
      have hrooted := Rooted.of_isRoot hroot
      have hself : p = r.ref → ∃ x ∈ w.table, x.ref = p ∧ Rooted w pid ∧
          (x.pid = pid ∨ w.table.Descends pid x) := fun he =>
        ⟨r, hr, he.symm, hrooted, .inl hpid⟩
      split at h
      next below hbelow =>
        cases h
        rcases List.mem_cons.mp hp with he | hp
        · exact hself he
        · obtain ⟨x, hx, rfl⟩ := descends_of_mem_descendants hw hbelow hp
          exact ⟨x, hx.mem, rfl, hrooted, .inr (hpid ▸ hx)⟩
      all_goals
        cases h
        exact hself (List.mem_singleton.mp hp)

theorem mem_merge {first second : List ProcessRef} (h : p ∈ merge first second) :
    p ∈ first ∨ p ∈ second := by
  unfold merge at h
  induction second generalizing first with
  | nil => exact .inl h
  | cons q second ih =>
    rcases ih h with hfirst | hsecond
    · dsimp only at hfirst
      split at hfirst
      · exact .inl hfirst
      · rcases List.mem_append.mp hfirst with hfirst | hq
        · exact .inl hfirst
        · exact .inr (List.mem_singleton.mp hq ▸ List.mem_cons_self)
    · exact .inr (List.mem_cons_of_mem q hsecond)

theorem mem_groupMembers (hw : w.table.ByPid) (h : p ∈ groupMembers w pid) :
    ∃ x ∈ w.table, x.ref = p ∧ x.pgid = pid := by
  obtain ⟨hmem, hg⟩ := List.mem_filter.mp h
  obtain ⟨x, hx, rfl⟩ := List.mem_map.mp hmem
  refine ⟨x, hx, rfl, ?_⟩
  split at hg
  next g hgroup =>
    obtain ⟨y, hy, -, rfl⟩ := group_eq_ok_iff.mp hgroup
    obtain rfl : x = y := Option.some.inj ((hw.find? hx).symm.trans hy)
    exact eq_of_beq hg
  · cases hg

/-- Whoever is found out to be a member is alive and belongs to the tree. -/
theorem mem_members (hs : w.Sound) (hw : w.table.ByPid) (h : (members w pid).1 = .ok found)
    (hp : p ∈ found) : ∃ x ∈ w.table, x.ref = p ∧ x.zombie = false ∧ Belongs w pid x := by
  have hbelongs : ∃ x ∈ w.table, x.ref = p ∧ Belongs w pid x ∧ isAlive w p = .ok true := by
    unfold members at h
    split at h
    · cases h
    next family notes hfamily =>
      have hroot : (rootFamily w pid).1 = .ok family := congrArg Prod.fst hfamily
      have halive := isAlive_of_mem_survivors h hp
      dsimp only at h
      by_cases hwin : w.windows = true
      · rw [if_pos hwin] at h
        obtain ⟨x, hx, rfl, hbelongs⟩ := mem_rootFamily hw hroot (mem_of_mem_survivors h hp)
        exact ⟨x, hx, rfl, .inr hbelongs, halive⟩
      · rw [if_neg hwin] at h
        rcases mem_merge (mem_of_mem_survivors h hp) with hp | hp
        · obtain ⟨x, hx, rfl, hbelongs⟩ := mem_rootFamily hw hroot hp
          exact ⟨x, hx, rfl, .inr hbelongs, halive⟩
        · obtain ⟨x, hx, rfl, hgroup⟩ := mem_groupMembers hw hp
          exact ⟨x, hx, rfl, .inl ⟨by simpa using hwin, hgroup⟩, halive⟩
  obtain ⟨x, hx, rfl, hbelongs, halive⟩ := hbelongs
  refine ⟨x, hx, rfl, ?_, hbelongs⟩
  rw [isAlive_eq (isAlive_eq_true halive).1, System.alive] at halive
  have hderef : w.table.deref? x.ref.serial = some x := hs.deref? hx
  rw [hderef] at halive
  simpa using halive

/-- An attempt to signal that the ending of the tree of a pid may make: to the group of the pid,
where there are groups, or to someone who is alive and belongs to the tree. -/
inductive Rightful (w : System) (pid : Int) : Sending → Prop where
  | group (signal : Signal) : w.windows = false → Rightful w pid (.group pid signal)
  | single {x : Process} (signal : Signal) : x ∈ w.table → x.zombie = false → Belongs w pid x →
      Rightful w pid (.single x.ref signal)

/-- Where the pid is no root, nobody outside its group may be signalled. -/
theorem Rightful.in_group {signal : Signal} (h : Rightful w pid (.single p signal))
    (hroot : ¬ Rooted w pid) : ∃ x ∈ w.table, x.ref = p ∧ x.pgid = pid := by
  cases h with
  | single _ hx _ hbelongs =>
    rcases hbelongs with ⟨-, hgroup⟩ | ⟨hrooted, -⟩
    · exact ⟨_, hx, rfl, hgroup⟩
    · exact absurd hrooted hroot

theorem rightful_volley {ps : List ProcessRef} (hs : w.Sound) (hw : w.table.ByPid)
    (hm : (members w pid).1 = .ok found) (hsub : ps.Sublist found) (signal : Signal) :
    ∀ x ∈ volley w.windows pid ps signal, Rightful w pid x := by
  intro x hx
  rcases List.mem_append.mp hx with hgroup | hsingle
  · cases hwin : w.windows with
    | true => simp [hwin] at hgroup
    | false =>
      rw [hwin] at hgroup
      exact List.mem_singleton.mp hgroup ▸ .group signal hwin
  · obtain ⟨p, hp, rfl⟩ := List.mem_map.mp hsingle
    obtain ⟨y, hy, rfl, halive, hbelongs⟩ := mem_members hs hw hm (hsub.subset hp)
    exact .single signal hy halive hbelongs

def Spares (w : System) (pid : Int) (bout : System × System) : Prop :=
  ∃ sendings, bout.2 = bout.1.sendAll sendings ∧ ∀ x ∈ sendings, Rightful w pid x

theorem Forced.spares {deadline : Option Instant} {bouts : List (System × System)}
    (h : Forced w pid found deadline bouts) (hs : w.Sound) (hw : w.table.ByPid)
    (hm : (members w pid).1 = .ok found) : ∀ bout ∈ bouts, Spares w pid bout := by
  have hasked := rightful_volley hs hw hm (List.Sublist.refl found) .term
  cases h with
  | later hd hleft =>
    intro bout hbout
    rcases List.mem_cons.mp hbout with rfl | hbout
    · exact ⟨_, rfl, hasked⟩
    · obtain rfl := List.mem_singleton.mp hbout
      exact ⟨_, rfl, rightful_volley hs hw hm hleft.sublist .kill⟩
  | @atOnce left hd hleft =>
    intro bout hbout
    obtain rfl := List.mem_singleton.mp hbout
    refine ⟨volley w.windows pid found .term ++ volley w.windows pid left .kill,
      (System.sendAll_append w _ _).symm, fun x hx => ?_⟩
    rcases List.mem_append.mp hx with hx | hx
    · exact hasked x hx
    · exact rightful_volley hs hw hm hleft.sublist .kill x hx

theorem Attempted.spares {deadline : Option Instant} {bouts : List (System × System)}
    (h : Attempted w pid found deadline bouts) (hs : w.Sound) (hw : w.table.ByPid)
    (hm : (members w pid).1 = .ok found) : ∀ bout ∈ bouts, Spares w pid bout := by
  rcases h with rfl | hforced
  · intro bout hbout
    obtain rfl := List.mem_singleton.mp hbout
    exact ⟨_, rfl, rightful_volley hs hw hm (.refl _) .term⟩
  · exact hforced.spares hs hw hm

end

end Tree

namespace Session

/-- A call that ends the tree of a pid signals nobody else, whatever fails: all its attempts go to
the group of the pid or to those who belonged to the tree and were alive when the call began. Where
nobody was found it attempts nothing. -/
theorem killTree_spares_others {s : Session} {w : System} {others : List Birth}
    {before : Timeline Session Activity Result} {step : Step Command} {pid : Int}
    {termLimit killLimit : Option Seconds}
    (hbefore : Later machinery { state := s.afresh w others } before)
    (hstep : step.command? = some (.killTree pid termLimit killLimit))
    (moves : List (Move Command)) :
    let attempted := bouts (turnsOfStep machinery before step moves)
    (∀ bout ∈ attempted, ∃ sendings, bout.2 = bout.1.sendAll sendings ∧
      (∀ x ∈ sendings, Rightful before.state.system pid x) ∧
      (¬ Rooted before.state.system pid → ∀ p signal, .single p signal ∈ sendings →
        ∃ x ∈ before.state.system.table, x.ref = p ∧ x.pgid = pid)) ∧
    ((∀ p ps, (members before.state.system pid).1 ≠ .ok (p :: ps)) → attempted = []) := by
  intro attempted
  have hs : before.state.system.Sound := sound_later hbefore
  have hw := byPid_later hbefore
  rcases course_or_nobody hbefore hstep moves with
    ⟨p, ps, task, hm, -, -, hcourse⟩ | ⟨-, hnone, -⟩
  · refine ⟨fun bout hbout => ?_, fun hnobody => absurd hm (hnobody p ps)⟩
    obtain ⟨sendings, heq, hrightful⟩ := hcourse.attempted.spares hs hw hm bout hbout
    exact ⟨sendings, heq, hrightful, fun hroot q signal hq => (hrightful _ hq).in_group hroot⟩
  · have hnothing : attempted = [] := hnone
    rw [hnothing]
    exact ⟨List.forall_mem_nil _, fun _ => rfl⟩

/-- The pid has passed to a stranger with a child, and a member of the old group is still there. -/
theorem killTree_spares_stranger :
    let others : List Birth :=
      [{ spec := { pid := 40, ppid := 1, pgid := 7 } },
       { spec := { pid := 41, ppid := 40, pgid := 7 } },
       { spec := { pid := 43, ppid := 1, pgid := 40, onTerm := none,
                   obstacles := { kill := some .denied } } }]
    let before : Timeline Session Activity Result := { state := ({} : Session).afresh {} others }
    let step : Step Command := .act (.killTree 40 (some (.ofDecimal 1 (-1))) none)
    let attempted := bouts (turnsOfStep machinery before step (List.replicate 2 .tick))
    attempted.length = 2 ∧ ∀ bout ∈ attempted, ∃ sendings, bout.2 = bout.1.sendAll sendings ∧
      ∀ p signal, .single p signal ∈ sendings → p.pid = 43 := by
  intro others before step attempted
  have hbefore : Later machinery { state := ({} : Session).afresh {} others } before := .refl
  have hstep : step.command? = some (.killTree 40 (some (.ofDecimal 1 (-1))) none) := rfl
  have hroot : ¬ Rooted before.state.system 40 := by decide +kernel
  have honly : ∀ x ∈ before.state.system.table, x.pgid = 40 → x.pid = 43 := by decide +kernel
  refine ⟨by decide +kernel, fun bout hbout => ?_⟩
  obtain ⟨hall, -⟩ := killTree_spares_others hbefore hstep (List.replicate 2 .tick)
  obtain ⟨sendings, heq, -, hgroup⟩ := hall bout hbout
  refine ⟨sendings, heq, fun p signal hp => ?_⟩
  obtain ⟨x, hx, rfl, hpgid⟩ := hgroup hroot p signal hp
  exact honly x hx hpgid

end Session

end Overseer
