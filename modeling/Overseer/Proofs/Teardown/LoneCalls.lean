import Overseer.Proofs.Teardown.ApartCalls

/-!
# A call that ends a tree alone

The standard for a call among others is the call alone in a system of its own, in which the clock
moves on nanosecond by nanosecond (`TreeCall.alone`). A session does not move its clock in this way:
it jumps to the next moment at which anything can happen. As nothing happens in between, its calls
keep step with the calls alone all the same (`TreeCall.Shadows.glide`).
-/

namespace Overseer

open Overseer.Tree World Timeline

namespace TreeCall

variable {v : Ward} {w : System} {c d : TreeCall} {calls : List TreeCall} {entry : Tracked}
  {x y z : System × TreeCall} {moment : Instant}

structure Level (x y : System × TreeCall) : Prop where
  system : x.1 = y.1
  progress : x.2.progress = y.2.progress

theorem Level.symm (h : Level x y) : Level y x := ⟨h.system.symm, h.progress.symm⟩

theorem Level.trans (h : Level x y) (k : Level y z) : Level x z :=
  ⟨h.system.trans k.system, h.progress.trans k.progress⟩

theorem Level.goOn (h : Level x y) : Level (x.2.goOn x.1) (y.2.goOn y.1) := by
  obtain ⟨a, c⟩ := x
  obtain ⟨b, d⟩ := y
  obtain ⟨rfl, hp⟩ := h
  dsimp only at hp ⊢
  cases hc : c.progress with
  | done result =>
    rw [goOn_done hc, goOn_done (hp.symm.trans hc)]
    exact ⟨rfl, hp⟩
  | pending tree =>
    rw [goOn_pending hc, goOn_pending (hp.symm.trans hc)]
    exact ⟨rfl, rfl⟩

theorem Shadows.level (h : Shadows v entry calls w x) (hl : Level x y) :
    Shadows v entry calls w y := by
  obtain ⟨⟨xs, c, ys, hcalls, hentry, hp, hothers⟩, hinside, hview, htends, halone⟩ := h
  refine ⟨⟨xs, c, ys, hcalls, hentry, hp.trans hl.progress, hothers⟩,
    hinside.congr hl.progress.symm, ?_, htends, ?_⟩
  · rw [← hl.system]
    exact hview
  · rw [← hl.system]
    exact halone

def RestsUntil (c : TreeCall) (moment : Instant) : Prop :=
  ∀ tree, c.progress = .pending tree → ∀ wake, tree.wake = some wake → moment ≤ wake

theorem goOn_of_quiet (h : c.progress.Leaves fun t => t.Quiet w.now) : Level (c.goOn w) (w, c) := by
  cases hp : c.progress with
  | done result =>
    rw [goOn_done hp]
    exact ⟨rfl, rfl⟩
  | pending tree =>
    rw [hp] at h
    cases h with
    | pending hquiet =>
      have hpoll : tree.poll { system := w } = ({ system := w }, .pending tree) :=
        Termination.Quiet.poll hquiet
      rw [goOn_pending hp, Termination.goOn, hpoll]
      exact ⟨rfl, hp.symm⟩

theorem goOn_of_rests (hinside : c.Inside v) (h : c.RestsUntil moment) (hnow : w.now < moment) :
    Level (c.goOn w) (w, c) := by
  refine goOn_of_quiet ?_
  cases hp : c.progress with
  | done result => exact .done
  | pending tree =>
    obtain ⟨-, vigil, hv, -⟩ : tree.pid = v.pid ∧ tree.Watches v.Cares := by
      unfold Inside at hinside
      rw [hp] at hinside
      cases hinside with
      | pending hi => exact hi
    have hwake := h tree hp
    unfold Termination.wake at hwake
    rw [hv] at hwake
    have hlater : ∀ least, Instant.earlier (some vigil.nextLook) vigil.deadline = some least →
        ∀ t, least ≤ t → w.now < t := fun least hl t hle =>
      Nat.lt_of_lt_of_le hnow (Nat.le_trans (hwake least hl) hle)
    refine .pending ⟨vigil, hv, ?_, ?_⟩
    · obtain ⟨least, hle, hleast⟩ :=
        Instant.earlier_le_left (b := vigil.deadline) (rfl : some vigil.nextLook = _)
      exact hlater least hleast _ hle
    · refine Instant.reached_eq_false_iff.mpr fun deadline hd => ?_
      obtain ⟨least, hle, hleast⟩ := Instant.earlier_le_right (a := some vigil.nextLook) hd
      exact hlater least hleast _ hle

def nextInstant (x : System × TreeCall) : System × TreeCall := (x.1.advance (x.1.now + 1), x.2)

/-- A call that begins in a system and is left alone with it, after so many nanoseconds. -/
def alone (c : TreeCall) (w : System) : Nat → System × TreeCall
  | 0 => c.goOn w
  | n + 1 =>
    let (w, c) := nextInstant (alone c w n)
    c.goOn w

theorem alone_succ (c : TreeCall) (w : System) (n : Nat) : c.alone w (n + 1) =
    (nextInstant (c.alone w n)).2.goOn (nextInstant (c.alone w n)).1 := rfl

theorem now_nextInstant (x : System × TreeCall) : (nextInstant x).1.now = x.1.now + 1 := rfl

theorem level_goOn (c : TreeCall) (w : System) :
    Level ((c.goOn w).2.goOn (c.goOn w).1) (c.goOn w) := by
  refine goOn_of_quiet ?_
  rw [now_goOn]
  cases hp : c.progress with
  | done result =>
    rw [goOn_done hp]
    dsimp only
    rw [hp]
    exact .done
  | pending tree =>
    rw [goOn_pending hp]
    exact Termination.leaves_poll tree { system := w }

theorem level_alone (c : TreeCall) (w : System) (n : Nat) :
    Level ((c.alone w n).2.goOn (c.alone w n).1) (c.alone w n) := by
  cases n with
  | zero => exact level_goOn c w
  | succ n => exact level_goOn _ _

section

variable {u : System} {n : Nat}

theorem Shadows.now_eq (h : Shadows v entry calls w x) : w.now = x.1.now := congrArg View.now h.view

theorem Shadows.rests (h : Shadows v entry calls w x) (hrests : ∀ c ∈ calls, c.RestsUntil moment) :
    x.2.RestsUntil moment := by
  obtain ⟨⟨xs, c, ys, rfl, -, hp, -⟩, -⟩ := h
  intro tree htree
  exact hrests c (by simp) tree (hp.trans htree)

/-- While nothing happens in the system and the calls have nothing to do, only the clock moves. -/
theorem Shadows.glide (h : Shadows v entry calls w (d.alone u n))
    (hidle : ∀ happening ∈ w.agenda, moment ≤ happening.1)
    (hrests : ∀ c ∈ calls, c.RestsUntil moment) {k : Nat} (hk : w.now + k < moment) :
    Shadows v entry calls { w with now := w.now + k } (d.alone u (n + k)) := by
  -- nanosecond by nanosecond: the call alone goes on in each of them, but as it rests does nothing
  induction k with
  | zero => exact h
  | succ k ih =>
    have hbefore := ih (Nat.lt_of_succ_lt hk)
    have hnow : w.now + k = (d.alone u (n + k)).1.now := hbefore.now_eq
    have hnext := hbefore.advance (w.now + k + 1)
    have hstill : w.advance (w.now + k + 1) = { w with now := w.now + (k + 1) } :=
      System.advance_of_idle fun happening hm => Nat.lt_of_lt_of_le hk (hidle happening hm)
    rw [System.advance_at, hstill] at hnext
    have hstep : ((d.alone u (n + k)).1.advance (w.now + k + 1), (d.alone u (n + k)).2) =
        nextInstant (d.alone u (n + k)) := by
      rw [nextInstant, hnow]
    rw [hstep] at hnext
    have hthen : (nextInstant (d.alone u (n + k))).1.now < moment := by
      rw [now_nextInstant, ← hnow]
      exact hk
    exact hnext.level (goOn_of_rests hnext.inside (hnext.rests hrests) hthen).symm

/-- When the next moment has come and the calls go on, they are as far as the one alone. -/
theorem Shadows.arrive (h : Shadows v entry calls w (d.alone u n))
    (hidle : ∀ happening ∈ w.agenda, moment ≤ happening.1)
    (hrests : ∀ c ∈ calls, c.RestsUntil moment) (hnow : w.now < moment) :
    ∃ x, Shadows v entry calls (w.advance moment) x ∧
      Level (x.2.goOn x.1) (d.alone u (n + (moment - w.now))) := by
  obtain ⟨k, rfl⟩ := Nat.exists_eq_add_of_lt hnow
  have hbefore := h.glide hidle hrests (Nat.lt_succ_self (w.now + k))
  have hthen : w.now + k = (d.alone u (n + k)).1.now := hbefore.now_eq
  have hnext := hbefore.advance (w.now + k + 1)
  rw [System.advance_at] at hnext
  refine ⟨_, hnext, ?_⟩
  have hlength : n + (w.now + k + 1 - w.now) = n + k + 1 := by omega
  rw [hlength, alone_succ, nextInstant, ← hthen]
  exact ⟨rfl, rfl⟩

end

end TreeCall

end Overseer
