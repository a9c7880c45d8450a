import Overseer.Proofs.Teardown.TreeCalls
import Overseer.Proofs.Tree.Descent

/-!
# Calls that end one tree among others

A call that ends a tree signals the group of its pid and those that it keeps watch over
(`Termination.Confines`). So among several calls that end trees without common kin each leaves alone
all that another one sees, and goes on as if there were no others: if a system in which all calls go
on looks the same to a ward as one in which a call for its sake goes on alone, then it does so after
they have gone on (`TreeCall.Shadows.goOnAll`). -/

namespace Overseer

open Overseer.Tree Number World Timeline

namespace Tree.Termination

def Addresses (Q : ProcessRef → Prop) (pid : Int) (windows : Bool) : Sending → Prop
  | .group pgid _ => windows = false ∧ pgid = pid
  | .single p _ => Q p

def Watches (Q : ProcessRef → Prop) (t : Termination) : Prop :=
  ∃ v, t.vigil = some v ∧ ∀ p ∈ v.alive, Q p

/-- Something holds of all whom a call keeps watch over, or of all that it may find. -/
def Ready (Q : ProcessRef → Prop) (w : System) (t : Termination) : Prop :=
  t.Watches Q ∨ t.vigil = none ∧ w.Sound ∧ Spans Q w t.pid

/-- All that a call does is to signal its group and those of whom something holds, and it goes on to
keep watch over such. -/
structure Confines (Q : ProcessRef → Prop) (pid : Int) (w : System)
    (x : Scene × Progress Termination Result) : Prop where
  sends : ∃ xs, x.1.system = w.sendAll xs ∧ ∀ y ∈ xs, Addresses Q pid w.windows y
  leaves : x.2.Leaves fun rest => rest.pid = pid ∧ rest.Watches Q

section

variable {Q : ProcessRef → Prop} {t : Termination} {alive : List ProcessRef} {s : Scene}
  {w : System}

theorem addresses_volley (h : ∀ p ∈ alive, Q p) (pid : Int) (windows : Bool) (signal : Signal) :
    ∀ y ∈ volley windows pid alive signal, Addresses Q pid windows y := by
  intro y hy
  rcases List.mem_append.mp hy with hgroup | hsingle
  · cases windows with
    | true => cases hgroup
    | false =>
      rw [List.mem_singleton.mp hgroup]
      exact ⟨rfl, rfl⟩
  · obtain ⟨p, hp, rfl⟩ := List.mem_map.mp hsingle
    exact h p hp

theorem Confines.of_eq {x : Scene × Progress Termination Result} (hsystem : x.1.system = w)
    (hleaves : x.2.Leaves fun rest => rest.pid = t.pid ∧ rest.Watches Q) :
    Confines Q t.pid w x :=
  ⟨⟨[], hsystem, List.forall_mem_nil _⟩, hleaves⟩

theorem Confines.after {pid : Int} {xs : List Sending} {x : Scene × Progress Termination Result}
    (hxs : ∀ y ∈ xs, Addresses Q pid w.windows y) (h : Confines Q pid (w.sendAll xs) x) :
    Confines Q pid w x := by
  obtain ⟨ys, hsystem, hys⟩ := h.sends
  refine ⟨⟨xs ++ ys, hsystem.trans (System.sendAll_append w xs ys).symm, fun y hy => ?_⟩, h.leaves⟩
  rcases List.mem_append.mp hy with hy | hy
  · exact hxs y hy
  · exact (System.ages_sendAll w xs).windows ▸ hys y hy

theorem Confines.signalAll {pid : Int} {x : Scene × Progress Termination Result}
    (h : ∀ p ∈ alive, Q p) (signal : Signal) (hs : s.system = w)
    (hx : Confines Q pid (signalAll s pid alive signal).system x) : Confines Q pid w x := by
  rw [system_signalAll, hs] at hx
  exact .after (addresses_volley h pid w.windows signal) hx

theorem confines_lookAtKilled (h : ∀ p ∈ alive, Q p) (deadline : Option Instant) :
    Confines Q t.pid s.system (t.lookAtKilled alive deadline s) := by
  unfold lookAtKilled
  split
  · exact .of_eq rfl .done
  · exact .of_eq rfl .done
  next left _ hleft =>
    split
    · exact .of_eq rfl .done
    · exact .of_eq rfl (.pending ⟨rfl, _, rfl, fun p hp => h p (mem_of_mem_survivors hleft hp)⟩)

theorem confines_kill (h : ∀ p ∈ alive, Q p) (s : Scene) :
    Confines Q t.pid s.system (t.kill alive s) := by
  have hlook : ∀ u : Scene, u.system = s.system →
      let killed := signalAll u t.pid alive .kill
      Confines Q t.pid s.system (t.lookAtKilled alive (t.killLimit.deadline killed.now) killed) :=
    fun u hu => .signalAll h .kill hu (confines_lookAtKilled h _)
  exact hlook _ rfl

theorem confines_lookAtAsked (h : ∀ p ∈ alive, Q p) (deadline : Option Instant) :
    Confines Q t.pid s.system (t.lookAtAsked alive deadline s) := by
  unfold lookAtAsked
  split
  · exact .of_eq rfl .done
  · exact .of_eq rfl .done
  next left _ hleft =>
    have hrest : ∀ p ∈ left, Q p := fun p hp => h p (mem_of_mem_survivors hleft hp)
    split
    · exact confines_kill hrest s
    · exact .of_eq rfl (.pending ⟨rfl, _, rfl, hrest⟩)

theorem confines_start
    (h : ∀ found, (members s.system t.pid).1 = .ok found → ∀ p ∈ found, Q p) :
    Confines Q t.pid s.system (t.start s) := by
  unfold start
  rcases hm : members s.system t.pid with ⟨result, notes⟩
  rw [hm] at h
  dsimp only
  split
  · exact .of_eq rfl .done
  · exact .of_eq rfl .done
  next found _ =>
    have hfound := h _ rfl
    have hlook : ∀ u : Scene, u.system = s.system →
        let asked := signalAll u t.pid found .term
        Confines Q t.pid s.system (t.lookAtAsked found (t.termLimit.deadline asked.now) asked) :=
      fun u hu => .signalAll hfound .term hu (confines_lookAtAsked hfound _)
    exact hlook _ rfl

theorem confines_poll (h : t.Ready Q s.system) (hp : s.system.table.ByPid) :
    Confines Q t.pid s.system (t.poll s) := by
  unfold poll
  rcases h with ⟨v, hv, halive⟩ | ⟨hv, hs, hspans⟩
  · rw [hv]
    dsimp only
    unfold keepVigil
    split
    · cases v.stage with
      | asked => exact confines_kill halive s
      | killed => exact .of_eq rfl .done
    · split
      · cases v.stage with
        | asked => exact confines_lookAtAsked halive _
        | killed => exact confines_lookAtKilled halive _
      · exact .of_eq rfl (.pending ⟨rfl, v, hv, halive⟩)
  · rw [hv]
    refine confines_start fun found hm p hmem => ?_
    obtain ⟨x, hx, rfl, -, hbelongs⟩ := mem_members hs hp hm hmem
    exact hspans x hx (.inl hbelongs)

end

structure Alike (v : Ward) (x y : Scene × Progress Termination Result) : Prop where
  view : v.view x.1.system = v.view y.1.system
  progress : x.2 = y.2

section

variable {v : Ward} {s u : Scene} {t : Termination} {alive : List ProcessRef}

theorem now_eq_of_view (h : v.view s.system = v.view u.system) : s.now = u.now :=
  congrArg View.now h

theorem alike_lookAtKilled (h : v.view s.system = v.view u.system)
    (halive : ∀ p ∈ alive, v.mine p.serial = true) (deadline : Option Instant) :
    Alike v (t.lookAtKilled alive deadline s) (t.lookAtKilled alive deadline u) := by
  unfold lookAtKilled
  rw [survivors_eq_of_view h halive, now_eq_of_view h]
  split
  · exact ⟨h, rfl⟩
  · exact ⟨h, rfl⟩
  · split
    · exact ⟨h, rfl⟩
    · exact ⟨h, rfl⟩

/-- After signals to what is looked after everything looks the same as before. -/
theorem view_signalAll (h : v.view s.system = v.view u.system) (hs : v.Tends s.system)
    (hu : v.Tends u.system) (halive : ∀ p ∈ alive, v.mine p.serial = true) (signal : Signal) :
    v.view (signalAll s v.pid alive signal).system =
      v.view (signalAll u v.pid alive signal).system := by
  have hwindows : s.system.windows = u.system.windows := congrArg View.windows h
  rw [system_signalAll, system_signalAll, ← hwindows]
  refine Ward.view_sendAll_congr h hs hu fun x hx => ?_
  have hown := addresses_volley halive v.pid s.system.windows signal x hx
  cases x with
  | group pgid signal => exact hown
  | single p signal => exact hown

theorem alike_kill (h : v.view s.system = v.view u.system) (hs : v.Tends s.system)
    (hu : v.Tends u.system) (ht : t.pid = v.pid) (halive : ∀ p ∈ alive, v.mine p.serial = true) :
    Alike v (t.kill alive s) (t.kill alive u) := by
  unfold kill
  dsimp only
  rw [now_signalAll, now_signalAll, ht]
  have hnow :
      (s.report [note s!"Force killing process tree pid={v.pid} survivors={pidList alive}"]).now =
      (u.report [note s!"Force killing process tree pid={v.pid} survivors={pidList alive}"]).now :=
    now_eq_of_view h
  rw [hnow]
  refine alike_lookAtKilled (view_signalAll ?_ ?_ ?_ halive .kill) halive _
  · exact h
  · exact hs
  · exact hu

theorem alike_lookAtAsked (h : v.view s.system = v.view u.system) (hs : v.Tends s.system)
    (hu : v.Tends u.system) (ht : t.pid = v.pid) (halive : ∀ p ∈ alive, v.mine p.serial = true)
    (deadline : Option Instant) :
    Alike v (t.lookAtAsked alive deadline s) (t.lookAtAsked alive deadline u) := by
  unfold lookAtAsked
  rw [survivors_eq_of_view h halive, now_eq_of_view h]
  split
  · exact ⟨h, rfl⟩
  · exact ⟨h, rfl⟩
  next left _ hleft =>
    split
    · exact alike_kill h hs hu ht fun p hp => halive p (mem_of_mem_survivors hleft hp)
    · exact ⟨h, rfl⟩

theorem tends_signalAll (hs : v.Tends s.system) (pid : Int) (ps : List ProcessRef)
    (signal : Signal) : v.Tends (signalAll s pid ps signal).system := by
  rw [system_signalAll]
  exact hs.sendAll _

theorem alike_start (h : v.view s.system = v.view u.system) (hs : v.Tends s.system)
    (hu : v.Tends u.system) (ht : t.pid = v.pid) (hsound : s.system.Sound)
    (hsc : Covers v s.system v.pid) (huc : Covers v u.system v.pid) :
    Alike v (t.start s) (t.start u) := by
  have hmembers := members_eq_of_view h hsc huc hs.byPid hu.byPid
  unfold start
  rw [ht]
  rcases hms : members s.system v.pid with ⟨result, notes⟩
  rcases hmu : members u.system v.pid with ⟨other, more⟩
  rw [hms, hmu] at hmembers
  obtain rfl : result = other := hmembers
  dsimp only
  split
  · exact ⟨h, rfl⟩
  · exact ⟨h, rfl⟩
  next found _ =>
    have hfound := mine_of_mem_members hsound hsc hs.byPid (congrArg Prod.fst hms)
    rw [now_signalAll, now_signalAll]
    have hnow : ((s.report notes).report
          [note s!"Terminating process tree pid={v.pid} members={sortedPidList found}"]).now =
        ((u.report more).report
          [note s!"Terminating process tree pid={v.pid} members={sortedPidList found}"]).now :=
      now_eq_of_view h
    rw [hnow]
    refine alike_lookAtAsked (view_signalAll ?_ ?_ ?_ hfound .term) (tends_signalAll ?_ _ _ _)
      (tends_signalAll ?_ _ _ _) ht hfound _
    · exact h
    · exact hs
    · exact hu
    · exact hs
    · exact hu

/-- Where everything looks the same, a call that ends a tree does the same. -/
theorem alike_poll (h : v.view s.system = v.view u.system) (hs : v.Tends s.system)
    (hu : v.Tends u.system) (ht : t.pid = v.pid)
    (hrs : t.Ready (fun p => v.mine p.serial = true) s.system)
    (hru : t.Ready (fun p => v.mine p.serial = true) u.system) :
    Alike v (t.poll s) (t.poll u) := by
  unfold poll
  rcases hrs with ⟨w, hw, halive⟩ | ⟨hnone, hsound, hsc⟩
  · rw [hw]
    dsimp only
    unfold keepVigil
    rw [now_eq_of_view h]
    split
    · cases w.stage with
      | asked => exact alike_kill h hs hu ht halive
      | killed => exact ⟨h, rfl⟩
    · split
      · cases w.stage with
        | asked => exact alike_lookAtAsked h hs hu ht halive _
        | killed => exact alike_lookAtKilled h halive _
      · exact ⟨h, rfl⟩
  · rw [hnone]
    rcases hru with ⟨w, hw, -⟩ | ⟨-, -, huc⟩
    · rw [hw] at hnone
      cases hnone
    · exact alike_start h hs hu ht hsound (ht ▸ hsc) (ht ▸ huc)

end

end Tree.Termination

def World.Ward.Cares (v : Ward) (p : ProcessRef) : Prop := v.mine p.serial = true

def World.Ward.Shuns (v : Ward) (p : ProcessRef) : Prop := v.mine p.serial = false ∧ p.pid ∉ v.pids

namespace TreeCall

variable {v : Ward} {a b w : System} {c d : TreeCall} {calls : List TreeCall} {entry : Tracked}

/-- A call for the sake of those that are looked after, ready to go on in a system. -/
def InsideAt (v : Ward) (w : System) (c : TreeCall) : Prop :=
  c.progress.Leaves fun t => t.pid = v.pid ∧ t.Ready v.Cares w

def OutsideAt (v : Ward) (w : System) (c : TreeCall) : Prop :=
  c.progress.Leaves fun t => (t.pid ∈ v.rivals ∧ t.pid ≠ v.pid) ∧ t.Ready v.Shuns w

def Inside (v : Ward) (c : TreeCall) : Prop :=
  c.progress.Leaves fun t => t.pid = v.pid ∧ t.Watches v.Cares

def Outside (v : Ward) (c : TreeCall) : Prop :=
  c.progress.Leaves fun t => (t.pid ∈ v.rivals ∧ t.pid ≠ v.pid) ∧ t.Watches v.Shuns

theorem Inside.at (h : c.Inside v) (w : System) : c.InsideAt v w :=
  Progress.Leaves.imp h fun _ hi => ⟨hi.1, .inl hi.2⟩

theorem Outside.at (h : c.Outside v) (w : System) : c.OutsideAt v w :=
  Progress.Leaves.imp h fun _ ho => ⟨ho.1, .inl ho.2⟩

theorem Ready.sendAll {Q : ProcessRef → Prop} {t : Termination} (h : t.Ready Q w)
    (xs : List Sending) : t.Ready Q (w.sendAll xs) :=
  h.imp_right fun ⟨hnone, hs, hspans⟩ =>
    ⟨hnone, (System.evolves_sendAll w xs).sound hs, hspans.sendAll xs⟩

theorem InsideAt.sendAll (h : c.InsideAt v w) (xs : List Sending) : c.InsideAt v (w.sendAll xs) :=
  Progress.Leaves.imp h fun _ hi => ⟨hi.1, Ready.sendAll hi.2 xs⟩

theorem OutsideAt.sendAll (h : c.OutsideAt v w) (xs : List Sending) :
    c.OutsideAt v (w.sendAll xs) :=
  Progress.Leaves.imp h fun _ ho => ⟨ho.1, Ready.sendAll ho.2 xs⟩

theorem goOn_outside (hw : v.Tends w) (h : c.OutsideAt v w) :
    (∃ xs, (c.goOn w).1 = w.sendAll xs) ∧ v.view (c.goOn w).1 = v.view w ∧
      (c.goOn w).2.Outside v := by
  unfold OutsideAt at h
  cases hp : c.progress with
  | done result =>
    rw [goOn_done hp]
    refine ⟨⟨[], rfl⟩, rfl, ?_⟩
    unfold Outside
    rw [hp]
    exact .done
  | pending t =>
    rw [hp] at h
    rw [goOn_pending hp]
    cases h with
    | pending h =>
      obtain ⟨⟨hrival, hne⟩, hready⟩ := h
      obtain ⟨⟨xs, hsystem, hxs⟩, hleaves⟩ :=
        Termination.confines_poll (s := { system := w }) hready hw.byPid
      have hafter : (t.goOn w).1 = w.sendAll xs := hsystem
      refine ⟨⟨xs, hafter⟩, ?_, ?_⟩
      · dsimp only
        rw [hafter]
        refine Ward.view_sendAll_of_foreign hw fun x hx => ?_
        have hto := hxs x hx
        cases x with
        | group pgid signal =>
          obtain ⟨hposix, rfl⟩ := hto
          exact ⟨hposix, hrival, hne⟩
        | single p signal => exact hto
      · have hrest : (t.goOn w).2.Leaves fun rest => rest.pid = t.pid ∧ rest.Watches v.Shuns :=
          hleaves
        exact hrest.imp fun rest hr => ⟨hr.1 ▸ ⟨hrival, hne⟩, hr.2⟩

/-- Where everything looks the same, a call for the sake of those that are looked after does the
same. -/
theorem goOn_inside (h : v.view a = v.view b) (ha : v.Tends a) (hb : v.Tends b)
    (hp : c.progress = d.progress) (hc : c.InsideAt v a) (hd : d.InsideAt v b) :
    v.view (c.goOn a).1 = v.view (d.goOn b).1 ∧
      (c.goOn a).2.progress = (d.goOn b).2.progress ∧
      (∃ xs, (c.goOn a).1 = a.sendAll xs) ∧ (∃ xs, (d.goOn b).1 = b.sendAll xs) ∧
      (d.goOn b).2.Inside v := by
  unfold InsideAt at hc hd
  cases hq : d.progress with
  | done result =>
    rw [goOn_done (hp.trans hq), goOn_done hq]
    refine ⟨h, hp, ⟨[], rfl⟩, ⟨[], rfl⟩, ?_⟩
    unfold Inside
    rw [hq]
    exact .done
  | pending t =>
    rw [hp, hq] at hc
    rw [hq] at hd
    rw [goOn_pending (hp.trans hq), goOn_pending hq]
    cases hc with
    | pending hc =>
      cases hd with
      | pending hd =>
        obtain ⟨hpid, hra⟩ := hc
        obtain ⟨⟨xs, hxs, -⟩, -⟩ :=
          Termination.confines_poll (s := { system := a }) hra ha.byPid
        obtain ⟨⟨ys, hys, -⟩, hleaves⟩ :=
          Termination.confines_poll (s := { system := b }) hd.2 hb.byPid
        obtain ⟨hview, hprogress⟩ := Termination.alike_poll (s := { system := a })
          (u := { system := b }) h ha hb hpid hra hd.2
        have hrest : (t.goOn b).2.Leaves fun rest => rest.pid = t.pid ∧ rest.Watches v.Cares :=
          hleaves
        exact ⟨hview, hprogress, ⟨xs, hxs⟩, ⟨ys, hys⟩,
          hrest.imp fun rest hr => ⟨hr.1.trans hpid, hr.2⟩⟩

theorem goOnAll_outside (hw : v.Tends w) (h : ∀ c ∈ calls, c.OutsideAt v w) :
    (∃ xs, (goOnAll calls w).1 = w.sendAll xs) ∧ v.view (goOnAll calls w).1 = v.view w ∧
      ∀ c ∈ (goOnAll calls w).2, c.Outside v := by
  induction calls generalizing w with
  | nil => exact ⟨⟨[], rfl⟩, rfl, by simp [goOnAll]⟩
  | cons c calls ih =>
    obtain ⟨hc, hrest⟩ := List.forall_mem_cons.mp h
    obtain ⟨⟨xs, hxs⟩, hview, hout⟩ := goOn_outside hw hc
    rw [goOnAll_cons]
    rw [hxs] at hview ⊢
    obtain ⟨⟨ys, hys⟩, hviews, houts⟩ :=
      ih (hw.sendAll xs) fun x hx => (hrest x hx).sendAll xs
    refine ⟨⟨xs ++ ys, hys.trans (System.sendAll_append w xs ys).symm⟩, hviews.trans hview, ?_⟩
    intro x hx
    rcases List.mem_cons.mp hx with rfl | hx
    · exact hout
    · exact houts x hx

/-- Among some calls in a system there is one that is as far as a call in another system that looks
the same, and the others are for the sake of others. -/
structure Shadows (v : Ward) (entry : Tracked) (calls : List TreeCall) (w : System)
    (alone : System × TreeCall) : Prop where
  among : ∃ xs c ys, calls = xs ++ c :: ys ∧ c.entry = entry ∧ c.progress = alone.2.progress ∧
    ∀ x ∈ xs ++ ys, x.Outside v
  inside : alone.2.Inside v
  view : v.view w = v.view alone.1
  tends : v.Tends w
  tendsAlone : v.Tends alone.1

theorem Inside.congr (h : d.Inside v) (hp : c.progress = d.progress) : c.Inside v := by
  unfold Inside at h ⊢
  rwa [hp]

theorem shadows_goOnAll {xs ys : List TreeCall} (h : v.view w = v.view b) (hw : v.Tends w)
    (hb : v.Tends b) (hp : c.progress = d.progress) (hc : c.InsideAt v w) (hd : d.InsideAt v b)
    (hothers : ∀ x ∈ xs ++ ys, x.OutsideAt v w) :
    Shadows v c.entry (goOnAll (xs ++ c :: ys) w).2 (goOnAll (xs ++ c :: ys) w).1 (d.goOn b) := by
  -- those before it leave the view as it is, so the call finds what the one alone finds
  obtain ⟨⟨before, hbefore⟩, hview, hxs⟩ :=
    goOnAll_outside hw fun x hx => hothers x (List.mem_append_left ys hx)
  have hwb := hw.sendAll before
  rw [hbefore] at hview
  obtain ⟨hown, hprogress, ⟨during, hduring⟩, ⟨also, halso⟩, hinside⟩ :=
    goOn_inside (hview.trans h) hwb hb hp (hc.sendAll before) hd
  have hwd := hwb.sendAll during
  rw [hduring] at hown
  -- and those after it change nothing of what it has done
  obtain ⟨⟨later, hlater⟩, hlast, hys⟩ := goOnAll_outside hwd fun x (hx : x ∈ ys) =>
    ((hothers x (List.mem_append_right xs hx)).sendAll before).sendAll during
  rw [hlater] at hlast
  rw [goOnAll_append, goOnAll_cons, hbefore, hduring]
  dsimp only
  refine ⟨⟨_, _, _, rfl, entry_goOn c _, hprogress, ?_⟩, hinside, ?_, ?_, halso ▸ hb.sendAll also⟩
  · intro x hx
    rcases List.mem_append.mp hx with hx | hx
    · exact hxs x hx
    · exact hys x hx
  · rw [hlater]
    exact hlast.trans hown
  · rw [hlater]
    exact hwd.sendAll later

theorem Shadows.goOnAll {alone : System × TreeCall} (h : Shadows v entry calls w alone) :
    Shadows v entry (TreeCall.goOnAll calls w).2 (TreeCall.goOnAll calls w).1
      (alone.2.goOn alone.1) := by
  obtain ⟨⟨xs, c, ys, rfl, rfl, hp, hothers⟩, hinside, hview, htends, halone⟩ := h
  exact shadows_goOnAll hview htends halone hp ((hinside.congr hp).at w) (hinside.at alone.1)
    fun x hx => (hothers x hx).at w

theorem Shadows.advance {alone : System × TreeCall} (h : Shadows v entry calls w alone)
    (t : Instant) : Shadows v entry calls (w.advance t) (alone.1.advance t, alone.2) :=
  ⟨h.among, h.inside, Ward.view_advance_congr h.view h.tends.toSane h.tendsAlone.toSane t,
    h.tends.advance t, h.tendsAlone.advance t⟩

theorem Shadows.emptyPipe {alone : System × TreeCall} (h : Shadows v entry calls w alone)
    (c : ChildId) : Shadows v entry calls (w.emptyPipe c) alone :=
  ⟨h.among, h.inside, (Ward.view_onPipe v w c _).trans h.view, h.tends.emptyPipe c, h.tendsAlone⟩

end TreeCall

end Overseer
