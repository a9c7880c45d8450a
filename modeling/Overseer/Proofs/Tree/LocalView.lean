import Overseer.Proofs.World.Agenda

/-!
# What one tree sees of a system

Of a system a ward sees some processes, what is still to become of them, and the attempts to signal
a pid or some pids (`Ward.view`). What happens in the system and is no business of the ward leaves
the view as it is; and where two systems look the same, they look the same after the same has
happened in both. -/

namespace Overseer.World

structure Ward where
  mine : Serial → Bool
  /-- The group that is signalled for the sake of the processes that are looked after. -/
  pid : Int
  pids : List Int
  rivals : List Int

@[ext]
structure View where
  now : Instant
  windows : Bool
  groupErrors : GroupErrors
  table : ProcessTable
  agenda : List (Instant × Happening)
  /-- The shell of each child, and whether a shell that is looked after has ended. -/
  shells : ChildId → Option (Serial × Bool)
  attempts : List (Instant × Attempt)

namespace Ward

/-- Whether something that happens is the business of the ward. Whoever is born may be, since he
takes the place of another one with his pid. -/
def minds (v : Ward) : Happening → Bool
  | .death serial _ _ => v.mine serial
  | _ => true

def aims (v : Ward) : Attempt → Bool
  | .group pgid _ => pgid == v.pid
  | .single pid _ => v.pids.contains pid

def share (v : Ward) (table : ProcessTable) : ProcessTable := table.filter (v.mine ·.serial)

def shell (v : Ward) (c : Child) : Serial × Bool :=
  (c.serial, v.mine c.serial && c.exitCode.isSome)

def view (v : Ward) (w : System) : View where
  now := w.now
  windows := w.windows
  groupErrors := w.groupErrors
  table := v.share w.table
  agenda := w.agenda.filter (v.minds ·.2)
  shells c := w.children[c]?.map v.shell
  attempts := w.signals.toList.filter (v.aims ·.2)

variable {v : Ward} {a b w : System} {serial : Serial} {table : ProcessTable}

theorem mem_share {x : Process} : x ∈ v.share table ↔ x ∈ table ∧ v.mine x.serial = true :=
  List.mem_filter

theorem share_ne (h : v.mine serial = false) : ∀ x ∈ v.share table, x.serial ≠ serial := by
  rintro x hx rfl
  rw [(mem_share.mp hx).2] at h
  cases h

theorem deref?_share (h : v.mine serial = true) :
    (v.share table).deref? serial = table.deref? serial := by
  unfold share ProcessTable.deref?
  rw [List.find?_filter]
  refine congrArg (List.find? · table) (funext fun x => ?_)
  by_cases hx : x.serial = serial
  · simp [hx, h]
  · simp [hx]

theorem share_bury (v : Ward) (table : ProcessTable) (serial : Serial) :
    v.share (table.bury serial) = (v.share table).bury serial := by
  unfold share ProcessTable.bury
  rw [List.filter_filterMap, List.filterMap_filter]
  refine List.filterMap_congr fun x _ => ?_
  by_cases hx : x.serial = serial ∧ (!x.zombie) = true
  · rw [if_pos hx]
    cases x.leavesZombie <;> cases hm : v.mine x.serial <;> simp [hm]
  · rw [if_neg hx]
    cases hm : v.mine x.serial <;> simp [hm]

theorem share_update (v : Ward) (table : ProcessTable) (serial : Serial)
    {change : Process → Process}
    (h : ∀ x, (change x).serial = x.serial) :
    v.share (table.update serial change) = (v.share table).update serial change := by
  unfold share ProcessTable.update
  rw [List.filter_map]
  refine congrArg _ (List.filter_congr fun x _ => ?_)
  dsimp only [Function.comp]
  split
  · rw [h]
  · rfl

theorem share_remove (v : Ward) (table : ProcessTable) (serial : Serial) :
    v.share (table.remove serial) = (v.share table).remove serial := List.filter_comm ..

theorem share_insert (h : table.ByPid) (v : Ward) (p : Process) : v.share (table.insert p) =
    if v.mine p.serial then (v.share table).insert p
    else (v.share table).filter (·.pid != p.pid) := h.filter_insert _ p

theorem shell?_eq_of_view (h : v.view a = v.view b) (c : ChildId) : a.shell? c = b.shell? c := by
  have hc := congrArg (·.map Prod.fst) (congrFun (congrArg View.shells h) c)
  simpa [view, System.shell?, Option.map_map, Function.comp_def, shell] using hc

/-- Where two systems look the same, whoever is looked after is the same. -/
theorem deref?_eq_of_view (h : v.view a = v.view b) (hs : v.mine serial = true) :
    a.table.deref? serial = b.table.deref? serial := by
  have hshare : ∀ w : System, (v.share w.table).deref? serial = w.table.deref? serial :=
    fun _ => deref?_share hs
  rw [← hshare a, ← hshare b]
  exact congrArg (ProcessTable.deref? · serial) (congrArg View.table h)

theorem view_table_congr (h : v.view a = v.view b) {table other : ProcessTable}
    (htable : v.share table = v.share other) :
    v.view { a with table } = v.view { b with table := other } := by
  change { v.view a with table := v.share table } = { v.view b with table := v.share other }
  rw [h, htable]

/-- After the end of a child the ward knows that its shell has ended, if it is looked after. -/
theorem view_endChild (v : Ward) (w : System) (c : ChildId) (code : Child → Int) :
    v.view (w.endChild c code) =
      { v.view w with
        shells := fun i => if i = c then (w.shell? c).map fun s => (s, v.mine s)
          else (v.view w).shells i } := by
  have hsame (h : ∀ child, w.children[c]? = some child → child.exitCode.isSome = true) :
      (v.view w).shells = fun i => if i = c then (w.shell? c).map fun s => (s, v.mine s)
        else (v.view w).shells i := by
    funext i
    split
    next hi =>
      subst hi
      cases hc : w.children[i]? with
      | none => simp [view, System.shell?, hc]
      | some child => simp [view, System.shell?, hc, shell, h child hc]
    · rfl
  unfold System.endChild
  cases hc : w.children[c]? with
  | none =>
    refine View.ext rfl rfl rfl rfl rfl (hsame fun child h => ?_) rfl
    rw [hc] at h
    cases h
  | some child =>
    dsimp only
    split
    next hcode =>
      refine View.ext rfl rfl rfl rfl rfl (hsame fun other h => ?_) rfl
      rw [hc] at h
      exact Option.some.inj h ▸ hcode
    · refine View.ext rfl rfl rfl rfl rfl (funext fun i => ?_) rfl
      have hlt : c < w.children.size := (Array.getElem?_eq_some_iff.mp hc).1
      dsimp only [view]
      by_cases hi : i = c
      · subst hi
        rw [Array.getElem?_setIfInBounds_self_of_lt hlt, System.shell?, hc]
        simp [shell, Child.endWith]
      · rw [if_neg hi, Array.getElem?_setIfInBounds_ne (Ne.symm hi)]

theorem view_endChild_congr (h : v.view a = v.view b) (c : ChildId) (code other : Child → Int) :
    v.view (a.endChild c code) = v.view (b.endChild c other) := by
  rw [view_endChild, view_endChild, shell?_eq_of_view h, h]

theorem view_endChild_of_not_mine {c : ChildId} (h : ∀ s, w.shell? c = some s → v.mine s = false)
    (code : Child → Int) : v.view (w.endChild c code) = v.view w := by
  rw [view_endChild]
  refine View.ext rfl rfl rfl rfl rfl (funext fun i => ?_) rfl
  dsimp only
  split
  next hi =>
    subst hi
    cases hc : w.children[i]? with
    | none => simp [view, System.shell?, hc]
    | some child =>
      have hs := h child.serial (by simp [System.shell?, hc])
      simp [view, System.shell?, hc, shell, hs]
  · rfl

theorem view_die_congr (h : v.view a = v.view b) (serial : Serial) (child : Option ChildId)
    (signal : Option Signal) :
    v.view (a.die serial child signal) = v.view (b.die serial child signal) := by
  have hbury : v.view { a with table := a.table.bury serial } =
      v.view { b with table := b.table.bury serial } := by
    refine view_table_congr h ?_
    rw [share_bury, share_bury]
    exact congrArg (ProcessTable.bury · serial) (congrArg View.table h)
  cases child with
  | none => exact hbury
  | some c =>
    cases signal with
    | none => exact hbury
    | some signal => exact view_endChild_congr hbury c _ _

theorem view_die_of_not_mine (h : v.mine serial = false) {child : Option ChildId}
    (hchild : System.IsShell w.shell? serial child) (signal : Option Signal) :
    v.view (w.die serial child signal) = v.view w := by
  have hbury : v.view { w with table := w.table.bury serial } = v.view w := by
    refine view_table_congr (b := w) rfl ?_
    rw [share_bury, ProcessTable.bury_of_ne (share_ne h)]
  cases child with
  | none => exact hbury
  | some c =>
    cases signal with
    | none => exact hbury
    | some signal =>
      refine (view_endChild_of_not_mine (fun s hs => ?_) _).trans hbury
      exact Option.some.inj ((hchild c rfl).symm.trans hs) ▸ h

theorem view_onPipe (v : Ward) (w : System) (c : ChildId) (change : Pipe → Pipe) :
    v.view (w.onPipe c change) = v.view w := by
  refine View.ext rfl rfl rfl rfl rfl (funext fun i => ?_) rfl
  dsimp only [view, System.onPipe]
  rw [Array.getElem?_modify]
  split
  · rw [Option.map_map]
    rfl
  · rfl

theorem view_exitShell_of_not_mine {c : ChildId} {child : Child}
    (hchild : w.children[c]? = some child)
    (hmine : v.mine child.serial = false) (code : Int) :
    v.view (w.exitShell c code) = v.view w := by
  unfold System.exitShell
  rw [hchild]
  dsimp only
  split
  · rfl
  · refine (view_endChild_of_not_mine (fun s hs => ?_) _).trans (view_table_congr (b := w) rfl ?_)
    · simp only [System.shell?, hchild, Option.map_some, Option.some.injEq] at hs
      exact hs ▸ hmine
    · rw [share_remove, ProcessTable.remove_of_ne (share_ne hmine)]

theorem view_exitShell_congr (h : v.view a = v.view b) (c : ChildId) (code : Int) :
    v.view (a.exitShell c code) = v.view (b.exitShell c code) := by
  have hc : a.children[c]?.map v.shell = b.children[c]?.map v.shell :=
    congrFun (congrArg View.shells h) c
  cases ha : a.children[c]? with
  | none =>
    rw [ha] at hc
    have hb := Option.map_eq_none_iff.mp hc.symm
    unfold System.exitShell
    rw [ha, hb]
    exact h
  | some x =>
    rw [ha] at hc
    obtain ⟨y, hb, hxy⟩ := Option.map_eq_some_iff.mp hc.symm
    obtain ⟨hserial, hended⟩ := Prod.mk.inj hxy
    cases hmine : v.mine x.serial with
    | true =>
      rw [hserial, hmine, Bool.true_and, Bool.true_and] at hended
      unfold System.exitShell
      rw [ha, hb]
      dsimp only
      rw [hended, hserial]
      split
      · exact h
      · refine view_endChild_congr (view_table_congr h ?_) c _ _
        rw [share_remove, share_remove]
        exact congrArg (ProcessTable.remove · x.serial) (congrArg View.table h)
    | false =>
      have hx := view_exitShell_of_not_mine ha hmine code
      have hy := view_exitShell_of_not_mine hb (hserial ▸ hmine) code
      exact hx.trans (h.trans hy.symm)

/-- What happens to two systems that look the same leaves them looking the same. -/
theorem view_apply_congr (h : v.view a = v.view b) (ha : a.table.ByPid) (hb : b.table.ByPid)
    (x : Happening) : v.view (a.apply x) = v.view (b.apply x) := by
  cases x with
  | birth p =>
    have htable : v.share a.table = v.share b.table := congrArg View.table h
    have hinsert : v.share (a.table.insert p) = v.share (b.table.insert p) := by
      rw [share_insert ha, share_insert hb, htable]
    exact view_table_congr h hinsert
  | death serial child signal => exact view_die_congr h serial child signal
  | program c event =>
    cases event with
    | exit code => exact view_exitShell_congr h c code
    | _ => exact (view_onPipe v a c _).trans (h.trans (view_onPipe v b c _).symm)

theorem view_happen_congr {due : List (Instant × Happening)} (h : v.view a = v.view b)
    (ha : a.table.ByPid) (hb : b.table.ByPid)
    (hdue : ∀ entry ∈ due, entry.2.Meets (fun _ => True) (System.IsShell a.shell?)) :
    v.view (a.happen due) = v.view (b.happen (due.filter (v.minds ·.2))) := by
  induction due generalizing a b with
  | nil => exact h
  | cons entry due ih =>
    obtain ⟨hentry, hrest⟩ := List.forall_mem_cons.mp hdue
    have hpid : (a.apply entry.2).table.ByPid := ha.becomes (System.ages_apply a entry.2).table
    have hshells : (a.apply entry.2).shell? = a.shell? :=
      (System.retains_apply (Φ := fun _ => True) (Ψ := fun _ _ => True)
        ⟨fun _ h => h, fun _ h => h, fun _ h => h, fun _ h => h⟩ a
        (by cases entry.2 <;> trivial)).shells
    rw [System.happen_cons, List.filter_cons]
    cases hm : v.minds entry.2 with
    | true =>
      rw [if_pos rfl, System.happen_cons]
      exact ih (view_apply_congr h ha hb entry.2) hpid
        (hb.becomes (System.ages_apply b entry.2).table) (hshells ▸ hrest)
    | false =>
      rw [if_neg Bool.false_ne_true]
      refine ih ?_ hpid hb (hshells ▸ hrest)
      rcases entry with ⟨time, _ | ⟨serial, child, signal⟩ | _⟩
      · cases hm
      · exact (view_die_of_not_mine hm hentry signal).trans h
      · cases hm

theorem view_at (h : v.view a = v.view b) (now : Instant) :
    v.view { a with now } = v.view { b with now } := by
  change { v.view a with now } = { v.view b with now }
  rw [h]

theorem view_agenda_congr (h : v.view a = v.view b) {agenda other : List (Instant × Happening)}
    (hagenda : agenda.filter (v.minds ·.2) = other.filter (v.minds ·.2)) :
    v.view { a with agenda } = v.view { b with agenda := other } := by
  change { v.view a with agenda := agenda.filter (v.minds ·.2) } =
    { v.view b with agenda := other.filter (v.minds ·.2) }
  rw [h, hagenda]

theorem view_advance_congr (h : v.view a = v.view b) (ha : a.Sane) (hb : b.Sane) (t : Instant) :
    v.view (a.advance t) = v.view (b.advance t) := by
  have hagenda : a.agenda.filter (v.minds ·.2) = b.agenda.filter (v.minds ·.2) :=
    congrArg View.agenda h
  have hdue : (a.agenda.takeWhile (System.isDue t)).filter (v.minds ·.2) =
      (b.agenda.takeWhile (System.isDue t)).filter (v.minds ·.2) := by
    rw [System.takeWhile_isDue ha.upcoming.1, System.takeWhile_isDue hb.upcoming.1,
      List.filter_comm, hagenda, List.filter_comm]
  have hlater : (a.agenda.dropWhile (System.isDue t)).filter (v.minds ·.2) =
      (b.agenda.dropWhile (System.isDue t)).filter (v.minds ·.2) := by
    rw [System.dropWhile_isDue ha.upcoming.1, System.dropWhile_isDue hb.upcoming.1,
      List.filter_comm, hagenda, List.filter_comm]
  have hmeets (w : System) (hw : w.Sane) : ∀ entry ∈ w.agenda.takeWhile (System.isDue t),
      entry.2.Meets (fun _ => True) (System.IsShell w.shell?) := fun entry he => by
    have hentry := hw.linked.coming entry ((List.takeWhile_sublist _).subset he)
    rcases entry with ⟨time, _ | _ | _⟩
    · trivial
    · exact hentry
    · trivial
  have hleft := view_agenda_congr h hlater
  rw [System.advance_eq, System.advance_eq]
  refine view_at ?_ t
  refine (view_happen_congr hleft ha.byPid hb.byPid (hmeets a ha)).trans ?_
  rw [hdue]
  refine Eq.symm (view_happen_congr rfl ?_ ?_ ?_)
  · exact hb.byPid
  · exact hb.byPid
  · exact hmeets b hb

theorem view_settleOrPlan_congr (h : v.view a = v.view b) (ha : a.table.ByPid)
    (hb : b.table.ByPid) (hua : a.Upcoming) (hub : b.Upcoming) (delay : Nat) (x : Happening) :
    v.view (a.settleOrPlan delay x) = v.view (b.settleOrPlan delay x) := by
  have hnow : a.now = b.now := congrArg View.now h
  have hagenda : a.agenda.filter (v.minds ·.2) = b.agenda.filter (v.minds ·.2) :=
    congrArg View.agenda h
  unfold System.settleOrPlan
  split
  · exact view_apply_congr h ha hb x
  · refine view_agenda_congr h ?_
    rw [filter_schedule hua.1, filter_schedule hub.1, hagenda, hnow]

theorem view_update_congr (h : v.view a = v.view b) (serial : Serial) {change : Process → Process}
    (hc : ∀ x, (change x).serial = x.serial) :
    v.view { a with table := a.table.update serial change } =
      v.view { b with table := b.table.update serial change } := by
  refine view_table_congr h ?_
  rw [share_update v _ _ hc, share_update v _ _ hc]
  exact congrArg (ProcessTable.update · serial change) (congrArg View.table h)

/-- A signal to a process that is looked after does the same where everything looks the same. -/
theorem view_deliver_congr (h : v.view a = v.view b) (ha : a.Sane) (hb : b.Sane)
    (hs : v.mine serial = true) (signal : Signal) :
    v.view (a.deliver serial signal) = v.view (b.deliver serial signal) := by
  have hstrike : ∀ (change : Process → Process), (∀ x, (change x).toProcessSpec = x.toProcessSpec) →
      (∀ x, (change x).serial = x.serial) → ∀ delay child,
      v.view ({ a with table := a.table.update serial change }.settleOrPlan delay
          (.death serial child (some signal))) =
        v.view ({ b with table := b.table.update serial change }.settleOrPlan delay
          (.death serial child (some signal))) := fun change hspec hserial delay child =>
    view_settleOrPlan_congr (view_update_congr h serial hserial) (ha.byPid.update serial hspec)
      (hb.byPid.update serial hspec) ha.upcoming hb.upcoming delay _
  unfold System.deliver
  rw [deref?_eq_of_view h hs]
  cases b.table.deref? serial with
  | none => exact h
  | some x =>
    cases signal with
    | term =>
      dsimp only
      split
      · exact h
      · cases x.onTerm with
        | none => exact view_update_congr h serial fun _ => rfl
        | some delay =>
          refine hstrike _ ?_ ?_ delay x.child
          · exact fun _ => rfl
          · exact fun _ => rfl
    | kill =>
      dsimp only
      split
      · exact h
      · cases x.onKill with
        | none => exact view_update_congr h serial fun _ => rfl
        | some delay =>
          refine hstrike _ ?_ ?_ delay x.child
          · exact fun _ => rfl
          · exact fun _ => rfl

/-- A signal to a process that is not looked after leaves the view as it is. -/
theorem view_deliver_of_not_mine (hw : w.Sane) (hs : v.mine serial = false) (signal : Signal) :
    v.view (w.deliver serial signal) = v.view w := by
  have hmark : ∀ (change : Process → Process), (∀ x, (change x).serial = x.serial) →
      v.view { w with table := w.table.update serial change } = v.view w := fun change hserial => by
    refine view_table_congr (b := w) rfl ?_
    rw [share_update v _ _ hserial, ProcessTable.update_of_ne (share_ne hs)]
  -- a death that is none of its business may end a child, but none that the ward sees
  have hstrike : ∀ (change : Process → Process), (∀ x, (change x).serial = x.serial) →
      ∀ delay child, System.IsShell w.shell? serial child →
      v.view ({ w with table := w.table.update serial change }.settleOrPlan delay
        (.death serial child (some signal))) = v.view w := by
    intro change hserial delay child hchild
    refine Eq.trans ?_ (hmark change hserial)
    unfold System.settleOrPlan
    split
    · refine view_die_of_not_mine hs ?_ _
      exact hchild
    · refine view_agenda_congr (b := { w with table := w.table.update serial change }) rfl ?_
      rw [filter_schedule hw.upcoming.1]
      simp [minds, hs]
  unfold System.deliver
  cases hd : w.table.deref? serial with
  | none => rfl
  | some x =>
    have hserial : x.serial = serial := by
      simpa using List.find?_some (p := fun x : Process => x.serial == serial) hd
    have hchild : System.IsShell w.shell? serial x.child :=
      hserial ▸ hw.linked.present x (List.mem_of_find?_eq_some hd)
    cases signal with
    | term =>
      dsimp only
      split
      · rfl
      · cases x.onTerm with
        | none => exact hmark _ fun _ => rfl
        | some delay =>
          refine hstrike _ ?_ delay x.child hchild
          exact fun _ => rfl
    | kill =>
      dsimp only
      split
      · rfl
      · cases x.onKill with
        | none => exact hmark _ fun _ => rfl
        | some delay =>
          refine hstrike _ ?_ delay x.child hchild
          exact fun _ => rfl

theorem view_foldl_deliver_congr {members : ProcessTable} (h : v.view a = v.view b) (ha : a.Sane)
    (hb : b.Sane) (hm : ∀ x ∈ members, v.mine x.serial = true) (signal : Signal) :
    v.view (members.foldl (fun w x => w.deliver x.serial signal) a) =
      v.view (members.foldl (fun w x => w.deliver x.serial signal) b) := by
  induction members generalizing a b with
  | nil => exact h
  | cons x members ih =>
    obtain ⟨hx, hrest⟩ := List.forall_mem_cons.mp hm
    exact ih (view_deliver_congr h ha hb hx signal) (ha.deliver x.serial signal)
      (hb.deliver x.serial signal) hrest

theorem view_foldl_deliver_of_not_mine {members : ProcessTable} (hw : w.Sane)
    (hm : ∀ x ∈ members, v.mine x.serial = false) (signal : Signal) :
    v.view (members.foldl (fun w x => w.deliver x.serial signal) w) = v.view w := by
  induction members generalizing w with
  | nil => rfl
  | cons x members ih =>
    obtain ⟨hx, hrest⟩ := List.forall_mem_cons.mp hm
    exact (ih (hw.deliver x.serial signal) hrest).trans (view_deliver_of_not_mine hw hx signal)

theorem view_record_congr (h : v.view a = v.view b) (attempt : Attempt) :
    v.view (a.record attempt) = v.view (b.record attempt) := by
  have hnow : a.now = b.now := congrArg View.now h
  have hattempts : (v.view (a.record attempt)).attempts = (v.view (b.record attempt)).attempts := by
    have hbefore : a.signals.toList.filter (v.aims ·.2) = b.signals.toList.filter (v.aims ·.2) :=
      congrArg View.attempts h
    simp only [view, System.record, Array.toList_push, List.filter_append, hbefore, hnow]
  change { v.view a with attempts := (v.view (a.record attempt)).attempts } =
    { v.view b with attempts := (v.view (b.record attempt)).attempts }
  rw [h, hattempts]

theorem view_record_of_not_aimed {attempt : Attempt} (h : v.aims attempt = false) :
    v.view (w.record attempt) = v.view w := by
  refine View.ext rfl rfl rfl rfl rfl rfl ?_
  simp [view, System.record, h]

structure Tends (v : Ward) (w : System) : Prop extends w.Sane where
  reach : w.windows = false → w.Peopled
    (fun x => (x.pgid = v.pid → v.mine x.serial = true) ∧
      (x.pgid ∈ v.rivals → v.mine x.serial = false)) fun _ _ => True

theorem lasting_reach (v : Ward) : Lasting
    (fun x => (x.pgid = v.pid → v.mine x.serial = true) ∧
      (x.pgid ∈ v.rivals → v.mine x.serial = false)) fun _ _ => True :=
  ⟨fun _ h => h, fun _ h => h, fun _ h => h, fun _ _ => trivial⟩

theorem Tends.advance (h : v.Tends w) (t : Instant) : v.Tends (w.advance t) where
  toSane := h.toSane.advance t
  reach hposix := by
    have hreach := h.reach ((System.ages_advance w t).windows ▸ hposix)
    exact (System.Peopled.retains_advance (lasting_reach v) hreach t).peopled hreach

theorem Tends.send (h : v.Tends w) (x : Sending) : v.Tends (w.send x) where
  toSane := h.toSane.send x
  reach hposix := by
    have hages : System.Ages w (w.send x) := System.ages_sendAll w [x]
    have hreach := h.reach (hages.windows ▸ hposix)
    exact (System.retains_send (lasting_reach v) hreach.present x).peopled hreach

theorem Tends.emptyPipe (h : v.Tends w) (c : ChildId) : v.Tends (w.emptyPipe c) where
  toSane := h.toSane.emptyPipe c
  reach hposix := by
    have hreach := h.reach hposix
    exact (System.retains_onPipe w c _).peopled hreach

def Own (v : Ward) (windows : Bool) : Sending → Prop
  | .group pgid _ => windows = false ∧ pgid = v.pid
  | .single p _ => v.mine p.serial = true

def Foreign (v : Ward) (windows : Bool) : Sending → Prop
  | .group pgid _ => windows = false ∧ pgid ∈ v.rivals ∧ pgid ≠ v.pid
  | .single p _ => v.mine p.serial = false ∧ p.pid ∉ v.pids

theorem isRunning_eq_of_view (h : v.view a = v.view b) {p : ProcessRef}
    (hp : v.mine p.serial = true) : a.isRunning p = b.isRunning p := by
  unfold System.isRunning
  rw [deref?_eq_of_view h hp]

theorem groupMembers_share {pgid : Int}
    (h : ∀ x ∈ w.table, x.pgid = pgid → v.mine x.serial = true) :
    w.groupMembers pgid = (v.share w.table).filter (·.pgid == pgid) := by
  unfold System.groupMembers share
  rw [List.filter_filter]
  refine List.filter_congr fun x hx => ?_
  cases hpgid : x.pgid == pgid with
  | false => rfl
  | true => rw [h x hx (eq_of_beq hpgid), Bool.true_and]

/-- An attempt of one's own does the same where everything looks the same. -/
theorem view_send_congr (h : v.view a = v.view b) (ha : v.Tends a) (hb : v.Tends b) {x : Sending}
    (hx : v.Own a.windows x) : v.view (a.send x) = v.view (b.send x) := by
  cases x with
  | group pgid signal =>
    obtain ⟨hposix, rfl⟩ := hx
    have hrecorded := view_record_congr h (.group v.pid signal)
    have hsame : a.windows = b.windows := congrArg View.windows h
    have hmine {w : System} (hw : v.Tends w) (hp : w.windows = false) :
        ∀ x ∈ w.table, x.pgid = v.pid → v.mine x.serial = true := fun x hm =>
      ((hw.reach hp).present x hm).1
    have hmembers : (a.record (.group v.pid signal)).groupMembers v.pid =
        (b.record (.group v.pid signal)).groupMembers v.pid := by
      have htable : v.share a.table = v.share b.table := congrArg View.table h
      have hall := (groupMembers_share (hmine ha hposix)).trans
        ((congrArg (List.filter (·.pgid == v.pid)) htable).trans
          (groupMembers_share (hmine hb (hsame ▸ hposix))).symm)
      exact hall
    have herrors : (a.record (.group v.pid signal)).groupObstacle? v.pid signal =
        (b.record (.group v.pid signal)).groupObstacle? v.pid signal :=
      congrArg (fun errors => (errors.lookup v.pid).bind (·.against signal))
        (congrArg View.groupErrors h)
    simp only [System.send, System.signalGroup]
    rw [hmembers, herrors]
    split
    · exact hrecorded
    · exact hrecorded
    · refine view_foldl_deliver_congr hrecorded (ha.toSane.record _) (hb.toSane.record _)
        (fun x hm => ?_) signal
      obtain ⟨hx, hpgid⟩ := List.mem_filter.mp hm
      exact hmine hb (hsame ▸ hposix) x hx (eq_of_beq hpgid)
  | single p signal =>
    have hrecorded := view_record_congr h (.single p.pid signal)
    simp only [System.send, System.signalProcess]
    rw [isRunning_eq_of_view hrecorded hx]
    split
    · exact hrecorded
    · split
      · exact view_deliver_congr hrecorded (ha.toSane.record _) (hb.toSane.record _) hx signal
      · exact hrecorded

theorem view_send_of_foreign (hw : v.Tends w) {x : Sending} (hx : v.Foreign w.windows x) :
    v.view (w.send x) = v.view w := by
  cases x with
  | group pgid signal =>
    obtain ⟨hposix, hrival, hne⟩ := hx
    have hrecorded : v.view (w.record (.group pgid signal)) = v.view w :=
      view_record_of_not_aimed (by simpa [aims] using hne)
    simp only [System.send, System.signalGroup]
    split
    · exact hrecorded
    · exact hrecorded
    · refine (view_foldl_deliver_of_not_mine (hw.toSane.record _) (fun x hm => ?_) signal).trans
        hrecorded
      obtain ⟨hx, hpgid⟩ := List.mem_filter.mp hm
      exact ((hw.reach hposix).present x hx).2 (eq_of_beq hpgid ▸ hrival)
  | single p signal =>
    obtain ⟨hmine, hpid⟩ := hx
    have hrecorded : v.view (w.record (.single p.pid signal)) = v.view w :=
      view_record_of_not_aimed (by simpa [aims] using hpid)
    simp only [System.send, System.signalProcess]
    split
    · exact hrecorded
    · split
      · exact (view_deliver_of_not_mine (hw.toSane.record _) hmine signal).trans hrecorded
      · exact hrecorded

theorem Tends.sendAll (h : v.Tends w) (xs : List Sending) : v.Tends (w.sendAll xs) := by
  induction xs generalizing w with
  | nil => exact h
  | cons x xs ih => exact ih (h.send x)

theorem windows_send (w : System) (x : Sending) : (w.send x).windows = w.windows :=
  (System.ages_sendAll w [x]).windows

theorem view_sendAll_congr (h : v.view a = v.view b) (ha : v.Tends a) (hb : v.Tends b)
    {xs : List Sending} (hxs : ∀ x ∈ xs, v.Own a.windows x) :
    v.view (a.sendAll xs) = v.view (b.sendAll xs) := by
  induction xs generalizing a b with
  | nil => exact h
  | cons x xs ih =>
    obtain ⟨hx, hrest⟩ := List.forall_mem_cons.mp hxs
    exact ih (view_send_congr h ha hb hx) (ha.send x) (hb.send x) (windows_send a x ▸ hrest)

theorem view_sendAll_of_foreign (hw : v.Tends w) {xs : List Sending}
    (hxs : ∀ x ∈ xs, v.Foreign w.windows x) : v.view (w.sendAll xs) = v.view w := by
  induction xs generalizing w with
  | nil => rfl
  | cons x xs ih =>
    obtain ⟨hx, hrest⟩ := List.forall_mem_cons.mp hxs
    exact (ih (hw.send x) (windows_send w x ▸ hrest)).trans (view_send_of_foreign hw hx)

end Ward

end Overseer.World
