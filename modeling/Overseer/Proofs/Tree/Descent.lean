import Overseer.Proofs.Tree.LocalView
import Overseer.Proofs.Tree.Targets

/-!
# Descendants that are found out

The descendants of a pid are all those that descend from it (`ProcessTable.mem_descendants_iff`),
and whether a process does is settled by the processes in between. So whoever looks after all the
kin of a pid (`Tree.Kin`) sees all that the members of its tree are found out from, whatever becomes
of other processes (`Tree.members_eq_of_view`). -/

namespace Overseer

open Overseer.Tree World

namespace World.ProcessTable

variable {table : ProcessTable} {pid : Int} {pids : List Int} {x : Process}

def Closed (table : ProcessTable) (pids : List Int) : Prop :=
  ∀ x ∈ table, x.ppid ∈ pids → x.pid ∈ pids

theorem family_of_closed (h : table.Closed pids) (generations : Nat) :
    table.family generations pids = pids := by
  have hnone : ((table.childrenOf pids).map (·.pid)).filter (!pids.contains ·) = [] := by
    refine List.filter_eq_nil_iff.mpr fun q hq => ?_
    obtain ⟨x, hx, rfl⟩ := List.mem_map.mp hq
    obtain ⟨hmem, hparent⟩ := mem_childrenOf_iff.mp hx
    simpa using h x hmem hparent
  induction generations with
  | zero => rfl
  | succ generations ih => rw [family, hnone, List.append_nil, ih]

/-- A family is closed after as many generations as there are processes outside it. -/
theorem closed_family (generations : Nat)
    (h : (table.filter fun x => !pids.contains x.pid).length ≤ generations) :
    table.Closed (table.family generations pids) := by
  -- each generation adds somebody, or there is nobody left to be added
  induction generations generalizing pids with
  | zero =>
    intro x hx _
    have hnone := List.filter_eq_nil_iff.mp (List.length_eq_zero_iff.mp (Nat.le_zero.mp h)) x hx
    simpa [family] using hnone
  | succ generations ih =>
    by_cases hclosed : table.Closed pids
    · rwa [family_of_closed hclosed]
    · unfold Closed at hclosed
      push Not at hclosed
      obtain ⟨x, hx, hparent, hnew⟩ := hclosed
      rw [family]
      refine ih (Nat.le_of_lt_succ (Nat.lt_of_lt_of_le ?_ h))
      let news := ((table.childrenOf pids).map (·.pid)).filter (!pids.contains ·)
      have hsplit : (table.filter fun x => !(pids ++ news).contains x.pid) =
          (table.filter fun x => !pids.contains x.pid).filter fun x => !news.contains x.pid := by
        rw [List.filter_filter]
        refine List.filter_congr fun x _ => ?_
        simp [Bool.and_comm]
      change (table.filter fun x => !(pids ++ news).contains x.pid).length < _
      rw [hsplit]
      refine List.length_filter_lt_length_iff_exists.mpr ⟨x, ?_, ?_⟩
      · exact List.mem_filter.mpr ⟨hx, by simpa using hnew⟩
      · have hmem : x.pid ∈ news := by
          refine List.mem_filter.mpr ⟨List.mem_map.mpr ⟨x, ?_, rfl⟩, by simpa using hnew⟩
          exact mem_childrenOf_iff.mpr ⟨hx, hparent⟩
        simpa using hmem

theorem mem_family_of_mem {q : Int} (h : q ∈ pids) (generations : Nat) :
    q ∈ table.family generations pids := by
  induction generations generalizing pids with
  | zero => exact h
  | succ generations ih => exact ih (List.mem_append_left _ h)

/-- Whoever descends from a pid is found among its descendants, in whatever generation. -/
theorem Descends.mem_family (h : Descends table pid x) :
    x.pid ∈ table.family table.length [pid] := by
  have hclosed : table.Closed (table.family table.length [pid]) :=
    closed_family table.length (List.length_filter_le _ _)
  induction h with
  | child hx hparent =>
    refine hclosed _ hx ?_
    rw [hparent]
    exact mem_family_of_mem (List.mem_singleton_self pid) _
  | step _ hx hparent ih => exact hclosed _ hx (hparent ▸ ih)

/-- Whether a process descends from a pid is found out generation by generation. -/
theorem descends_iff :
    Descends table pid x ↔ x ∈ table ∧ x.ppid ∈ table.family table.length [pid] := by
  constructor
  · intro h
    refine ⟨h.mem, ?_⟩
    cases h with
    | child _ hparent =>
      rw [hparent]
      exact mem_family_of_mem (List.mem_singleton_self pid) _
    | step hy _ hparent => exact hparent ▸ hy.mem_family
  · rintro ⟨hx, hparent⟩
    have hhead : ∀ q ∈ [pid], q = pid ∨ ∃ y, Descends table pid y ∧ y.pid = q := fun q hq =>
      .inl (List.mem_singleton.mp hq)
    rcases mem_family table.length hhead hparent with hroot | ⟨y, hy, hpid⟩
    · exact .child hx hroot
    · exact .step hy hx hpid.symm

instance (table : ProcessTable) (pid : Int) (x : Process) : Decidable (Descends table pid x) :=
  decidable_of_iff _ descends_iff.symm

theorem ByPid.mem_descendants_iff (h : table.ByPid) :
    x ∈ table.descendants pid ↔ x.pid ≠ pid ∧ Descends table pid x := by
  constructor
  · intro hx
    have hne := (List.mem_filter.mp hx).2
    exact ⟨by simpa using (Bool.and_eq_true_iff.mp hne).1, h.descends hx⟩
  · rintro ⟨hne, hx⟩
    refine List.mem_filter.mpr ⟨hx.mem, ?_⟩
    simpa [hne] using hx.mem_family

theorem Descends.mono {other : ProcessTable} (h : Descends table pid x)
    (hsub : ∀ y, Descends table pid y → y ∈ other) : Descends other pid x := by
  induction h with
  | child hx hparent => exact .child (hsub _ (.child hx hparent)) hparent
  | step hy hx hparent ih => exact .step ih (hsub _ (.step hy hx hparent)) hparent

/-- Nobody but those who descend from a pid has a bearing on who its descendants are. -/
theorem ByPid.descendants_filter (h : table.ByPid) {keep : Process → Bool}
    (hkeep : ∀ x, Descends table pid x → keep x = true) :
    descendants (table.filter keep) pid = table.descendants pid := by
  have hpart : ByPid (table.filter keep) := List.Pairwise.filter _ h
  have hdescends : ∀ x, Descends (table.filter keep) pid x ↔ Descends table pid x := fun x =>
    ⟨fun hx => hx.mono fun y hy => (List.mem_filter.mp hy.mem).1,
      fun hx => hx.mono fun y hy => List.mem_filter.mpr ⟨hy.mem, hkeep y hy⟩⟩
  have hfilter : ∀ table : ProcessTable, table.descendants pid =
      table.filter fun x => x ∈ table.descendants pid := fun table => by
    rw [descendants]
    refine List.filter_congr fun x hx => ?_
    rw [Bool.eq_iff_iff, decide_eq_true_iff, List.mem_filter]
    exact ⟨fun hq => ⟨hx, hq⟩, fun hq => hq.2⟩
  rw [hfilter (table.filter keep), hfilter table, List.filter_filter]
  refine List.filter_congr fun x _ => ?_
  rw [Bool.eq_iff_iff, Bool.and_eq_true_iff, decide_eq_true_iff, decide_eq_true_iff,
    hpart.mem_descendants_iff, h.mem_descendants_iff, hdescends]
  exact ⟨fun hx => hx.1, fun hx => ⟨hx, hkeep x hx.2⟩⟩

end World.ProcessTable

namespace Tree

instance (w : System) (pid : Int) (x : Process) : Decidable (Belongs w pid x) :=
  inferInstanceAs (Decidable (_ ∨ _))

/-- A process counts as kin of a pid: it belongs to the tree, or it has the pid and cannot be asked
for its group, so that nobody can tell whether it does. -/
def Kin (w : System) (pid : Int) (x : Process) : Prop :=
  Belongs w pid x ∨ (x.pid = pid ∧ x.obstacles.group ≠ none)

instance (w : System) (pid : Int) (x : Process) : Decidable (Kin w pid x) :=
  inferInstanceAs (Decidable (_ ∨ _))

def Spans (Q : ProcessRef → Prop) (w : System) (pid : Int) : Prop :=
  ∀ x ∈ w.table, Kin w pid x → Q x.ref

def Covers (v : Ward) : System → Int → Prop := Spans fun p => v.mine p.serial = true

variable {v : Ward} {a b w : System} {pid : Int} {ps : List ProcessRef} {Q : ProcessRef → Prop}

/-- A process is one that was there before, as far as anybody's kin is concerned. -/
def Remains (table : ProcessTable) (x : Process) : Prop :=
  ∃ y ∈ table, y.ref = x.ref ∧ y.ppid = x.ppid ∧ y.pgid = x.pgid

theorem lasting_remains (table : ProcessTable) : Lasting (Remains table) fun _ _ => True :=
  ⟨fun _ h => h, fun _ h => h, fun _ h => h, fun _ _ => trivial⟩

theorem Remains.descends {x : Process} (h : ∀ y ∈ b.table, Remains a.table y)
    (hx : b.table.Descends pid x) :
    ∃ y, a.table.Descends pid y ∧ y.ref = x.ref ∧ y.ppid = x.ppid ∧ y.pgid = x.pgid := by
  induction hx with
  | child hx hparent =>
    obtain ⟨y, hy, href, hppid, hpgid⟩ := h _ hx
    exact ⟨y, .child hy (hppid.trans hparent), href, hppid, hpgid⟩
  | step _ hx hparent ih =>
    obtain ⟨z, hz, hzref, -⟩ := ih
    obtain ⟨y, hy, href, hppid, hpgid⟩ := h _ hx
    have hzpid := congrArg ProcessRef.pid hzref
    exact ⟨y, .step hz hy (hppid.trans (hparent.trans hzpid.symm)), href, hppid, hpgid⟩

theorem Kin.of_remains {x : Process} (h : ∀ y ∈ b.table, Remains a.table y)
    (hwindows : b.windows = a.windows) (hx : x ∈ b.table) (hkin : Kin b pid x) :
    ∃ y ∈ a.table, y.ref = x.ref ∧ Kin a pid y := by
  have hrooted : Rooted b pid → Rooted a pid := by
    rintro (hw | ⟨r, hr, hpid, hpgid⟩)
    · exact .inl (hwindows ▸ hw)
    · obtain ⟨y, hy, href, -, hgroup⟩ := h r hr
      exact .inr ⟨y, hy, (congrArg ProcessRef.pid href).trans hpid, hgroup.trans hpgid⟩
  obtain ⟨y, hy, href, -, hpgid⟩ := h x hx
  have hpid : y.pid = x.pid := congrArg ProcessRef.pid href
  have hobstacles : y.obstacles = x.obstacles := congrArg ProcessRef.obstacles href
  rcases hkin with (⟨hposix, hgroup⟩ | ⟨hroot, hself | hbelow⟩) | ⟨hself, hdenied⟩
  · exact ⟨y, hy, href, .inl (.inl ⟨hwindows ▸ hposix, hpgid.trans hgroup⟩)⟩
  · exact ⟨y, hy, href, .inl (.inr ⟨hrooted hroot, .inl (hpid.trans hself)⟩)⟩
  · obtain ⟨z, hz, hzref, -⟩ := Remains.descends h hbelow
    exact ⟨z, hz.mem, hzref, .inl (.inr ⟨hrooted hroot, .inr hz⟩)⟩
  · exact ⟨y, hy, href, .inr ⟨hpid.trans hself, hobstacles ▸ hdenied⟩⟩

theorem Spans.send (h : Spans Q w pid) (x : Sending) :
    Spans Q (w.send x) pid := by
  intro y hy hkin
  have hself : ∀ y ∈ w.table, Remains w.table y := fun y hy => ⟨y, hy, rfl, rfl, rfl⟩
  have hremains := (System.retains_send (lasting_remains w.table) hself x).present hself
  have hwindows : (w.send x).windows = w.windows := (System.ages_sendAll w [x]).windows
  obtain ⟨z, hz, href, hzkin⟩ := Kin.of_remains hremains hwindows hy hkin
  exact href ▸ h z hz hzkin

theorem Spans.sendAll (h : Spans Q w pid) (xs : List Sending) : Spans Q (w.sendAll xs) pid := by
  induction xs generalizing w with
  | nil => exact h
  | cons x xs ih => exact ih (h.send x)

theorem isAlive_eq_of_view (h : v.view a = v.view b) {p : ProcessRef}
    (hp : v.mine p.serial = true) : isAlive a p = isAlive b p := by
  unfold isAlive System.isZombie
  rw [v.isRunning_eq_of_view h hp, v.deref?_eq_of_view h hp]

theorem survivors_eq_of_view (h : v.view a = v.view b) (hps : ∀ p ∈ ps, v.mine p.serial = true) :
    survivors a ps = survivors b ps := by
  induction ps with
  | nil => rfl
  | cons p ps ih =>
    obtain ⟨hp, hrest⟩ := List.forall_mem_cons.mp hps
    rw [survivors, survivors, isAlive_eq_of_view h hp, ih hrest]

theorem rootFamily_of_no_kin (h : ∀ x, w.table.find? pid = some x → ¬ Kin w pid x) :
    (rootFamily w pid).1 = .ok [] := by
  unfold rootFamily System.openProcess
  cases hf : w.table.find? pid with
  | none => rfl
  | some x =>
    obtain ⟨hx, hpid⟩ := ProcessTable.find?_eq_some hf
    have hkin := h x hf
    have hroot : ¬ Rooted w pid := fun hr => hkin (.inl (.inr ⟨hr, .inl hpid⟩))
    have hposix : w.windows = false := Bool.eq_false_iff.mpr fun hw => hroot (.inl hw)
    have hgroup : x.obstacles.group = none := by
      by_contra hne
      exact hkin (.inr ⟨hpid, hne⟩)
    have hpgid : (x.pgid == pid) = false := by
      refine Bool.eq_false_iff.mpr fun he => hroot (.inr ⟨x, hx, hpid, eq_of_beq he⟩)
    have hstranger : isRoot w pid = .ok false := by
      have hasked : w.group pid = .ok x.pgid := group_eq_ok_iff.mpr ⟨x, hf, hgroup, rfl⟩
      rw [isRoot, hasked, hposix, if_neg Bool.false_ne_true]
      dsimp only
      rw [hpgid]
    dsimp only
    cases x.obstacles.opening with
    | some refusal => cases refusal <;> rfl
    | none =>
      dsimp only
      rw [hstranger]

theorem group_congr {x : Process} (ha : a.table.find? pid = some x)
    (hb : b.table.find? pid = some x) : a.group pid = b.group pid := by
  unfold System.group
  rw [ha, hb]

/-- The root and its descendants are found out from those that are looked after. -/
theorem rootFamily_congr (h : v.view a = v.view b) (ha : Covers v a pid) (hb : Covers v b pid)
    (hpa : a.table.ByPid) (hpb : b.table.ByPid) {x : Process} (hx : v.mine x.serial = true)
    (hfa : a.table.find? pid = some x) (hfb : b.table.find? pid = some x) :
    rootFamily a pid = rootFamily b pid := by
  have hwindows : a.windows = b.windows := congrArg View.windows h
  have hroot : isRoot a pid = isRoot b pid := by
    unfold isRoot
    rw [hwindows, group_congr hfa hfb]
  have hbelow (hr : isRoot b pid = .ok true) :
      a.table.descendants pid = b.table.descendants pid := by
    have hpart {w : System} (hw : Covers v w pid) (hp : w.table.ByPid) (hr : Rooted w pid) :
        w.table.descendants pid = (v.share w.table).descendants pid :=
      (hp.descendants_filter fun y hy => hw y hy.mem (.inl (.inr ⟨hr, .inr hy⟩))).symm
    have htable : v.share a.table = v.share b.table := congrArg View.table h
    rw [hpart ha hpa (.of_isRoot (hroot.trans hr)), hpart hb hpb (.of_isRoot hr), htable]
  have hrunning : a.isRunning x.ref = b.isRunning x.ref := v.isRunning_eq_of_view h hx
  have hpid : x.ref.pid = pid := (ProcessTable.find?_eq_some hfa).2
  unfold rootFamily System.openProcess
  rw [hfa, hfb]
  dsimp only
  cases x.obstacles.opening with
  | some refusal => cases refusal <;> rfl
  | none =>
    dsimp only
    rw [hroot]
    split
    · rfl
    · rfl
    next hr =>
      unfold System.descendants
      rw [hrunning, hpid, hbelow hr]

theorem groupMembers_eq (hw : w.table.ByPid) : groupMembers w pid =
    (w.table.filter fun x => x.obstacles.group.isNone && x.pgid == pid).map (·.ref) := by
  unfold groupMembers System.allProcesses
  rw [List.filter_map]
  refine congrArg _ (List.filter_congr fun x hx => ?_)
  have hf : w.table.find? x.ref.pid = some x := hw.find? hx
  simp only [Function.comp, System.group, hf]
  cases x.obstacles.group <;> rfl

theorem groupMembers_congr (h : v.view a = v.view b) (ha : Covers v a pid) (hb : Covers v b pid)
    (hpa : a.table.ByPid) (hpb : b.table.ByPid) (hposix : a.windows = false) :
    groupMembers a pid = groupMembers b pid := by
  have hpart {w : System} (hw : Covers v w pid) (hp : w.windows = false) :
      (w.table.filter fun x => x.obstacles.group.isNone && x.pgid == pid) =
        (v.share w.table).filter fun x => x.obstacles.group.isNone && x.pgid == pid := by
    unfold Ward.share
    rw [List.filter_filter]
    refine List.filter_congr fun x hx => ?_
    cases hpgid : x.pgid == pid with
    | false => simp
    | true =>
      have hmine : v.mine x.serial = true := hw x hx (.inl (.inl ⟨hp, eq_of_beq hpgid⟩))
      rw [hmine, Bool.and_true, Bool.and_true]
  have hwindows : a.windows = b.windows := congrArg View.windows h
  have htable : v.share a.table = v.share b.table := congrArg View.table h
  rw [groupMembers_eq hpa, groupMembers_eq hpb, hpart ha hposix, hpart hb (hwindows ▸ hposix),
    htable]

theorem mine_of_mem_rootFamily (hw : Covers v w pid) (hp : w.table.ByPid) {found : List ProcessRef}
    (h : (rootFamily w pid).1 = .ok found) : ∀ p ∈ found, v.mine p.serial = true := by
  intro p hm
  obtain ⟨x, hx, rfl, hbelongs⟩ := mem_rootFamily hp h hm
  exact hw x hx (.inl (.inr hbelongs))

theorem find?_iff_of_view (h : v.view a = v.view b) (hpa : a.table.ByPid) (hpb : b.table.ByPid)
    {x : Process} (hx : v.mine x.serial = true) :
    a.table.find? pid = some x ↔ b.table.find? pid = some x := by
  have hone {a b : System} (h : v.view a = v.view b) (hpb : b.table.ByPid)
      (hf : a.table.find? pid = some x) : b.table.find? pid = some x := by
    obtain ⟨hmem, rfl⟩ := ProcessTable.find?_eq_some hf
    have htable : v.share a.table = v.share b.table := congrArg View.table h
    have hshare : x ∈ v.share b.table := htable ▸ Ward.mem_share.mpr ⟨hmem, hx⟩
    exact hpb.find? (Ward.mem_share.mp hshare).1
  exact ⟨hone h hpb, hone h.symm hpa⟩

/-- Where all the kin of a pid are looked after and look the same, the same members are found. -/
theorem members_eq_of_view (h : v.view a = v.view b) (ha : Covers v a pid) (hb : Covers v b pid)
    (hpa : a.table.ByPid) (hpb : b.table.ByPid) : (members a pid).1 = (members b pid).1 := by
  have hwindows : a.windows = b.windows := congrArg View.windows h
  have hfamily : (rootFamily a pid).1 = (rootFamily b pid).1 := by
    by_cases hx : ∃ x, v.mine x.serial = true ∧ a.table.find? pid = some x
    · obtain ⟨x, hmine, hf⟩ := hx
      rw [rootFamily_congr h ha hb hpa hpb hmine hf ((find?_iff_of_view h hpa hpb hmine).mp hf)]
    · have hnone {w : System} (hw : Covers v w pid)
          (hfind : ∀ x, v.mine x.serial = true → w.table.find? pid ≠ some x) :
          (rootFamily w pid).1 = .ok [] :=
        rootFamily_of_no_kin fun x hf hkin =>
          hfind x (hw x (ProcessTable.find?_eq_some hf).1 hkin) hf
      push Not at hx
      rw [hnone ha hx,
        hnone hb fun x hmine hf => hx x hmine ((find?_iff_of_view h hpa hpb hmine).mpr hf)]
  unfold members
  rcases hra : rootFamily a pid with ⟨result, notes⟩
  rcases hrb : rootFamily b pid with ⟨other, more⟩
  rw [hra, hrb] at hfamily
  obtain rfl : result = other := hfamily
  cases result with
  | error failure => rfl
  | ok found =>
    have hfound := mine_of_mem_rootFamily ha hpa (congrArg Prod.fst hra)
    dsimp only
    rw [hwindows]
    cases hw : b.windows with
    | true => exact survivors_eq_of_view h hfound
    | false =>
      have hposix : a.windows = false := hwindows.trans hw
      rw [if_neg Bool.false_ne_true, if_neg Bool.false_ne_true,
        ← groupMembers_congr h ha hb hpa hpb hposix]
      refine survivors_eq_of_view h fun p hp => ?_
      rcases mem_merge hp with hp | hp
      · exact hfound p hp
      · obtain ⟨x, hx, rfl, hpgid⟩ := mem_groupMembers hpa hp
        exact ha x hx (.inl (.inl ⟨hposix, hpgid⟩))

theorem mine_of_mem_members (hs : w.Sound) (hw : Covers v w pid) (hp : w.table.ByPid)
    {found : List ProcessRef} (h : (members w pid).1 = .ok found) :
    ∀ p ∈ found, v.mine p.serial = true := by
  intro p hm
  obtain ⟨x, hx, rfl, -, hbelongs⟩ := mem_members hs hp h hm
  exact hw x hx (.inl hbelongs)

end Tree

end Overseer
