import Mathlib.Data.List.Basic
import Overseer.Timeline

/-!
# Moves of a timeline

How a timeline can go on. A play begins steps and lets the clock jump from moment to moment, and
everything settles in between; every script is taken in a play. `Later` forgets when things settle:
whatever holds of all later timelines holds under every order of the single steps.
-/

namespace Overseer

variable {σ κ α β : Type}

namespace Instant

theorem earlier_eq_some_iff {a b : Option Instant} {t : Instant} :
    earlier a b = some t ↔
      (a = some t ∧ ∀ s, b = some s → t ≤ s) ∨ (b = some t ∧ ∀ s, a = some s → t ≤ s) := by
  cases a with
  | none => cases b <;> simp [earlier]
  | some a =>
    cases b with
    | none => simp [earlier]
    | some b =>
      simp only [earlier, Option.some.injEq, forall_eq']
      constructor
      · rintro rfl
        rcases Nat.le_total a b with h | h
        · exact .inl ⟨(Nat.min_eq_left h).symm, Nat.min_le_right a b⟩
        · exact .inr ⟨(Nat.min_eq_right h).symm, Nat.min_le_left a b⟩
      · rintro (⟨rfl, h⟩ | ⟨rfl, h⟩)
        · exact Nat.min_eq_left h
        · exact Nat.min_eq_right h

theorem earlier_le_left {a b : Option Instant} {t : Instant} (h : a = some t) :
    ∃ s ≤ t, earlier a b = some s := by
  subst h
  cases b with
  | none => exact ⟨t, Nat.le_refl t, rfl⟩
  | some b => exact ⟨min t b, Nat.min_le_left t b, rfl⟩

theorem earlier_le_right {a b : Option Instant} {t : Instant} (h : b = some t) :
    ∃ s ≤ t, earlier a b = some s := by
  subst h
  cases a with
  | none => exact ⟨t, Nat.le_refl t, rfl⟩
  | some a => exact ⟨min a t, Nat.min_le_right a t, rfl⟩

theorem reached_eq_true_iff {now : Instant} {moment : Option Instant} :
    reached now moment = true ↔ ∃ t, moment = some t ∧ t ≤ now := by
  cases moment <;> simp [reached]

theorem reached_eq_false_iff {now : Instant} {moment : Option Instant} :
    reached now moment = false ↔ ∀ t, moment = some t → now < t := by
  cases moment <;> simp [reached]

theorem foldl_earlier_mem {γ : Type} {wake : γ → Option Instant} {xs : List γ}
    {start : Option Instant} {t : Instant}
    (h : xs.foldl (fun moment x => earlier moment (wake x)) start = some t) :
    start = some t ∨ ∃ x ∈ xs, wake x = some t := by
  induction xs generalizing start with
  | nil => exact .inl h
  | cons x xs ih =>
    rcases ih h with he | ⟨y, hy, hw⟩
    · rcases earlier_eq_some_iff.mp he with ⟨hs, -⟩ | ⟨hx, -⟩
      · exact .inl hs
      · exact .inr ⟨x, List.mem_cons_self, hx⟩
    · exact .inr ⟨y, List.mem_cons_of_mem x hy, hw⟩

theorem foldl_earlier_le {γ : Type} {wake : γ → Option Instant} {xs : List γ}
    {start : Option Instant} {t : Instant} (h : start = some t ∨ ∃ x ∈ xs, wake x = some t) :
    ∃ s ≤ t, xs.foldl (fun moment x => earlier moment (wake x)) start = some s := by
  induction xs generalizing start t with
  | nil =>
    obtain hs | ⟨x, hx, -⟩ := h
    · exact ⟨t, Nat.le_refl t, hs⟩
    · cases hx
  | cons x xs ih =>
    rcases h with hs | ⟨y, hy, hw⟩
    · obtain ⟨s, hst, he⟩ := earlier_le_left (b := wake x) hs
      obtain ⟨r, hrs, hr⟩ := ih (.inl he)
      exact ⟨r, Nat.le_trans hrs hst, hr⟩
    · rcases List.mem_cons.mp hy with rfl | hy
      · obtain ⟨s, hst, he⟩ := earlier_le_right (a := start) hw
        obtain ⟨r, hrs, hr⟩ := ih (.inl he)
        exact ⟨r, Nat.le_trans hrs hst, hr⟩
      · exact ih (.inr ⟨y, hy, hw⟩)

/-- What is left of a sorted list when all that is due has been taken is later. -/
theorem lt_of_mem_dropWhile {γ : Type} {xs : List (Instant × γ)} {t : Instant}
    (h : xs.Pairwise fun a b => a.1 ≤ b.1) {x : Instant × γ}
    (hx : x ∈ xs.dropWhile (·.1 ≤ t)) : t < x.1 := by
  induction xs with
  | nil => cases hx
  | cons y ys ih =>
    obtain ⟨hy, hys⟩ := List.pairwise_cons.mp h
    by_cases hle : y.1 ≤ t
    · rw [List.dropWhile_cons_of_pos (by simpa using hle)] at hx
      exact ih hys hx
    · rw [List.dropWhile_cons_of_neg (by simpa using hle)] at hx
      rcases List.mem_cons.mp hx with rfl | hx
      · exact Nat.lt_of_not_le hle
      · exact Nat.lt_of_lt_of_le (Nat.lt_of_not_le hle) (hy x hx)

end Instant

/-- The command that a step comes down to, also when it is started in the background. -/
def Step.command? : Step κ → Option κ
  | .act command => some command
  | .background _ step => step.command?
  | _ => none

def Step.cancels : Step κ → Bool
  | .cancel _ => true
  | .background _ step => step.cancels
  | _ => false

theorem Step.cancels_of_command? {step : Step κ} {command : κ} (h : step.command? = some command) :
    step.cancels = false := by
  induction step with
  | background _ step ih => exact ih h
  | act _ => rfl
  | pause _ => rfl
  | join _ => rfl
  | cancel _ => cases h

inductive Move (κ : Type) where
  | begin (step : Step κ)
  | tick
  deriving DecidableEq, Repr

/-- The clock stands still but for `advance`, and what is still under way after it has gone on has
something to do at a later moment only. -/
structure Machinery.Punctual (m : Machinery σ κ α β) : Prop where
  now_advance : ∀ s moment, m.now (m.advance s moment) = moment
  now_deliver : ∀ s, m.now (m.deliver s) = m.now s
  now_complete : ∀ s, m.now (m.complete s) = m.now s
  now_start : ∀ peers command s, m.now (m.start peers command s).1 = m.now s
  now_poll : ∀ a s, m.now (m.poll a s).1 = m.now s
  now_cancel : ∀ a s, m.now (m.cancel a s) = m.now s
  wake_poll : ∀ a s rest, (m.poll a s).2 = .pending rest →
    ∀ moment, m.wake rest = some moment → m.now s < moment

namespace Timeline

section

variable (m : Machinery σ κ α β)

def launch (t : Timeline σ α β) (step : Step κ) : Timeline σ α β :=
  let (t, task) := startStep m t step
  (t.push task).1

def stir (t : Timeline σ α β) : Move κ → Timeline σ α β
  | .begin step => launch m t step
  | .tick =>
    match nextMoment m t with
    | some moment => { t with state := m.advance t.state moment }
    | none => t

def move (t : Timeline σ α β) (x : Move κ) : Timeline σ α β := settle m (stir m t x)

def play (t : Timeline σ α β) (moves : List (Move κ)) : Timeline σ α β := moves.foldl (move m) t

inductive Later (t : Timeline σ α β) : Timeline σ α β → Prop where
  | refl : Later t t
  | launch {u} (step : Step κ) : Later t u → Later t (launch m u step)
  | advance {u} (moment : Instant) :
      Later t u → Later t { u with state := m.advance u.state moment }
  | deliver {u} : Later t u → Later t { u with state := m.deliver u.state }
  | complete {u} : Later t u → Later t { u with state := m.complete u.state }
  | poll {u} (id : TaskId) : Later t u → Later t (pollTask m u id)

def Cancelled (t : Timeline σ α β) (id : TaskId) : Prop :=
  ∃ time, t.tasks[id]? = some (.ended time .cancelled)

def Timely (t : Timeline σ α β) (id : TaskId) : Prop :=
  ∀ (task : Task α β), t.tasks[id]? = some task → ∀ moment, task.wake m.wake = some moment →
    m.now t.state < moment

end

variable {m : Machinery σ κ α β} {t u : Timeline σ α β}

theorem size_pollTask (t : Timeline σ α β) (id : TaskId) :
    (pollTask m t id).tasks.size = t.tasks.size := by
  unfold pollTask
  split <;> simp

theorem pollTask_pending {id : TaskId} {errand : Errand α}
    (h : t.tasks[id]? = some (.pending errand)) :
    (pollTask m t id).state = (pollErrand m t errand).1 ∧
      (pollTask m t id).tasks[id]? = some (pollErrand m t errand).2 := by
  have hid : id < t.tasks.size := (Array.getElem?_eq_some_iff.mp h).1
  unfold pollTask
  rw [h]
  exact ⟨rfl, Array.getElem?_setIfInBounds_self_of_lt hid⟩

theorem pollTask_of_ne {id other : TaskId} (h : id ≠ other) :
    (pollTask m t id).tasks[other]? = t.tasks[other]? := by
  unfold pollTask
  split
  · exact Array.getElem?_setIfInBounds_ne h
  · rfl

theorem pollErrand_ne_cancelled (t : Timeline σ α β) (errand : Errand α) (time : Instant) :
    (pollErrand m t errand).2 ≠ .ended time .cancelled := by
  cases errand with
  | pause moment =>
    rw [pollErrand]
    split <;> simp
  | join other =>
    rw [pollErrand]
    split <;> simp
  | act a => cases hp : (m.poll a t.state).2 <;> simp [pollErrand, hp, Task.ofProgress]

theorem pollTask_of_not_pending {id : TaskId}
    (h : ∀ errand, t.tasks[id]? ≠ some (.pending errand)) : pollTask m t id = t := by
  unfold pollTask
  split
  · exact absurd ‹_› (h _)
  · rfl

theorem pollTask_cases (t : Timeline σ α β) (id : TaskId) :
    (∃ a, t.tasks[id]? = some (.pending (.act a)) ∧
      pollTask m t id =
        { t with
          state := (m.poll a t.state).1
          tasks := t.tasks.setIfInBounds id
            (.ofProgress (m.now (m.poll a t.state).1) (m.poll a t.state).2) }) ∨
    ((∀ a, t.tasks[id]? ≠ some (.pending (.act a))) ∧ (pollTask m t id).state = t.state ∧
      ∀ a, (pollTask m t id).tasks[id]? ≠ some (.pending (.act a))) := by
  by_cases hp : ∃ errand, t.tasks[id]? = some (.pending errand)
  · obtain ⟨errand, he⟩ := hp
    obtain ⟨hs, ht⟩ := pollTask_pending (m := m) he
    cases errand with
    | pause due =>
      refine .inr ⟨by simp [he], ?_, ?_⟩
      · rw [hs, pollErrand]
        split <;> rfl
      · rw [ht, pollErrand]
        split <;> simp
    | join other =>
      refine .inr ⟨by simp [he], ?_, ?_⟩
      · rw [hs, pollErrand]
        split <;> rfl
      · rw [ht, pollErrand]
        split <;> simp
    | act a =>
      refine .inl ⟨a, he, ?_⟩
      unfold pollTask
      rw [he]
      rfl
  · have hn : ∀ errand, t.tasks[id]? ≠ some (.pending errand) := fun errand he => hp ⟨errand, he⟩
    rw [pollTask_of_not_pending hn]
    exact .inr ⟨fun a => hn _, rfl, fun a => hn _⟩

theorem ended_pollTask {id other : TaskId} {time : Instant} {ending : Ending β}
    (h : t.tasks[id]? = some (.ended time ending)) :
    (pollTask m t other).tasks[id]? = some (.ended time ending) := by
  by_cases he : other = id
  · subst he
    rw [pollTask_of_not_pending, h]
    intro errand hp
    rw [h] at hp
    cases hp
  · rw [pollTask_of_ne he, h]

theorem ended_cancelTask {id other : TaskId} {time : Instant} {ending : Ending β}
    (h : t.tasks[id]? = some (.ended time ending)) :
    (cancelTask m t other).1.tasks[id]? = some (.ended time ending) := by
  unfold cancelTask
  split
  next errand hp =>
    have hne : other ≠ id := by
      rintro rfl
      rw [h] at hp
      cases hp
    rwa [Array.getElem?_setIfInBounds_ne hne]
  · exact h

/-- Cancelling a task cancels its activity, or leaves the state alone. -/
theorem cancelTask_state (t : Timeline σ α β) (id : TaskId) :
    (∃ a, t.tasks[id]? = some (.pending (.act a)) ∧
      (cancelTask m t id).1.state = m.cancel a t.state) ∨
    (cancelTask m t id).1.state = t.state := by
  unfold cancelTask
  split
  next errand hp =>
    cases errand with
    | act a => exact .inl ⟨a, hp, rfl⟩
    | pause moment => exact .inr rfl
    | join other => exact .inr rfl
  · exact .inr rfl

theorem cancelTask_of_ne {id other : TaskId} (h : id ≠ other) :
    (cancelTask m t id).1.tasks[other]? = t.tasks[other]? := by
  unfold cancelTask
  split
  · exact Array.getElem?_setIfInBounds_ne h
  · rfl

theorem cancelTask_pending {id : TaskId} {errand : Errand α}
    (h : t.tasks[id]? = some (.pending errand)) :
    (cancelTask m t id).1.tasks[id]? = some (.ended (m.now t.state) .cancelled) := by
  unfold cancelTask
  rw [h]
  exact Array.getElem?_setIfInBounds_self_of_lt (Array.getElem?_eq_some_iff.mp h).1

theorem push_of_lt {id : TaskId} {task : Task α β} (h : id < t.tasks.size) :
    (t.push task).1.tasks[id]? = t.tasks[id]? := by
  simp [push, Array.getElem?_push, Nat.ne_of_lt h]

theorem push_size (t : Timeline σ α β) (task : Task α β) :
    (t.push task).1.tasks[t.tasks.size]? = some task := by
  simp [push]

theorem act_push {id : TaskId} {a : α} {task : Task α β}
    (h : (t.push task).1.tasks[id]? = some (.pending (.act a))) :
    t.tasks[id]? = some (.pending (.act a)) ∨ id = t.tasks.size ∧ task = .pending (.act a) := by
  by_cases hid : id = t.tasks.size
  · subst hid
    rw [push_size] at h
    exact .inr ⟨rfl, Option.some.inj h⟩
  · left
    simpa [push, Array.getElem?_push, hid] using h

theorem ofProgress_eq_act {now : Instant} {progress : Progress α β} {a : α}
    (h : Task.ofProgress now progress = .pending (.act a)) : progress = .pending a := by
  cases progress with
  | pending rest =>
    cases h
    rfl
  | done result => cases h

theorem act_push_idle {id : TaskId} {a : α} {task : Task α β} (hidle : task.activity? = none)
    (h : (t.push task).1.tasks[id]? = some (.pending (.act a))) :
    t.tasks[id]? = some (.pending (.act a)) := by
  rcases act_push h with h | ⟨-, rfl⟩
  · exact h
  · cases hidle

theorem act_cancelTask {id other : TaskId} {a : α}
    (h : (cancelTask m t other).1.tasks[id]? = some (.pending (.act a))) :
    t.tasks[id]? = some (.pending (.act a)) := by
  revert h
  unfold cancelTask
  split
  next errand hp =>
    intro h
    by_cases hid : other = id
    · subst hid
      simp [Array.getElem?_setIfInBounds] at h
    · rwa [Array.getElem?_setIfInBounds_ne hid] at h
  · exact fun h => h

/-- An activity that is under way after a poll is what has become of one, or has not been polled. -/
theorem act_pollTask {id other : TaskId} {a : α}
    (h : (pollTask m t other).tasks[id]? = some (.pending (.act a))) :
    other ≠ id ∧ t.tasks[id]? = some (.pending (.act a)) ∨
      ∃ b, t.tasks[id]? = some (.pending (.act b)) ∧ (m.poll b t.state).2 = .pending a := by
  by_cases hid : other = id
  · subst hid
    obtain ⟨b, hb, hpoll⟩ | ⟨-, -, hn⟩ := pollTask_cases (m := m) t other
    · right
      refine ⟨b, hb, ?_⟩
      rw [hpoll, Array.getElem?_setIfInBounds_self_of_lt (Array.getElem?_eq_some_iff.mp hb).1] at h
      cases hp : (m.poll b t.state).2 with
      | pending rest =>
        rw [hp] at h
        cases h
        rfl
      | done result =>
        rw [hp] at h
        cases h
    · exact absurd h (hn a)
  · rw [pollTask_of_ne hid] at h
    exact .inl ⟨hid, h⟩

theorem pollAll_induction {P : Timeline σ α β → Prop}
    (hpoll : ∀ t id, P t → P (pollTask m t id)) (h : P t) : P (pollAll m t) := by
  have hall : ∀ (ids : List TaskId) t, P t → P (ids.foldl (pollTask m) t) := by
    intro ids
    induction ids with
    | nil => exact fun t ht => ht
    | cons id ids ih => exact fun t ht => ih _ (hpoll t id ht)
  exact hall _ t h

theorem rounds_induction {P : Timeline σ α β → Prop}
    (hdeliver : ∀ t, P t → P { t with state := m.deliver t.state })
    (hcomplete : ∀ t, P t → P { t with state := m.complete t.state })
    (hpoll : ∀ t id, P t → P (pollTask m t id)) (count : Nat) (h : P t) : P (rounds m count t) := by
  induction count generalizing t with
  | zero => exact h
  | succ count ih =>
    exact ih (pollAll_induction hpoll (hcomplete _ (hdeliver _ (pollAll_induction hpoll
      (hdeliver t h)))))

/-- What every single step of a round preserves holds after everything has settled. -/
theorem settle_induction {P : Timeline σ α β → Prop}
    (hdeliver : ∀ t, P t → P { t with state := m.deliver t.state })
    (hcomplete : ∀ t, P t → P { t with state := m.complete t.state })
    (hpoll : ∀ t id, P t → P (pollTask m t id)) (h : P t) : P (settle m t) :=
  rounds_induction hdeliver hcomplete hpoll _ h

/-- What holds as soon as the ends have been noticed for the first time, and is left alone by every
single step from then on, holds after everything has settled. -/
theorem settle_of_noticed {P : Timeline σ α β → Prop}
    (hnoticed : P { pollAll m { t with state := m.deliver t.state } with
      state := m.complete (m.deliver (pollAll m { t with state := m.deliver t.state }).state) })
    (hdeliver : ∀ t, P t → P { t with state := m.deliver t.state })
    (hcomplete : ∀ t, P t → P { t with state := m.complete t.state })
    (hpoll : ∀ t id, P t → P (pollTask m t id)) : P (settle m t) :=
  rounds_induction hdeliver hcomplete hpoll (t.pendingCount + 1)
    (pollAll_induction (P := P) hpoll hnoticed)

/-- Everything settles in a round that every task goes on in at its end. -/
theorem settle_eq_pollAll {P : Timeline σ α β → Prop}
    (hdeliver : ∀ t, P t → P { t with state := m.deliver t.state })
    (hcomplete : ∀ t, P t → P { t with state := m.complete t.state })
    (hpoll : ∀ t id, P t → P (pollTask m t id)) (h : P t) :
    ∃ u, P u ∧ settle m t = pollAll m u := by
  have hround : ∀ t, P t → ∃ u, P u ∧ round m t = pollAll m u := fun t ht =>
    ⟨_, hcomplete _ (hdeliver _ (pollAll_induction hpoll (hdeliver t ht))), rfl⟩
  have hrounds : ∀ count t, P t → ∃ u, P u ∧ rounds m (count + 1) t = pollAll m u := by
    intro count
    induction count with
    | zero => exact hround
    | succ count ih =>
      intro t ht
      obtain ⟨u, hu, hr⟩ := hround t ht
      refine ih (round m t) ?_
      rw [hr]
      exact pollAll_induction hpoll hu
  exact hrounds _ t h

/-- What polling a task makes true of it, and polling another one leaves true, is true of all tasks
when each of them has gone on. -/
theorem pollAll_each {P : Timeline σ α β → Prop} {Q : Timeline σ α β → TaskId → Prop}
    (hpoll : ∀ t id, P t → P (pollTask m t id)) (hown : ∀ t id, P t → Q (pollTask m t id) id)
    (hother : ∀ t id other, P t → id ≠ other → Q t other → Q (pollTask m t id) other) (h : P t)
    (id : TaskId) (hid : id < t.tasks.size) : Q (pollAll m t) id := by
  have hall : ∀ (ids : List TaskId) u, P u → (id ∈ ids ∨ Q u id) →
      Q (ids.foldl (pollTask m) u) id := by
    intro ids
    induction ids with
    | nil => exact fun u _ hq => hq.resolve_left List.not_mem_nil
    | cons other ids ih =>
      intro u hu hq
      refine ih _ (hpoll u other hu) ?_
      by_cases he : other = id
      · subst he
        exact .inr (hown u other hu)
      · rcases hq with hq | hq
        · exact .inl ((List.mem_cons.mp hq).resolve_left (Ne.symm he))
        · exact .inr (hother u other id hu he hq)
  exact hall _ t h (.inl (List.mem_range.mpr hid))

/-- What polling a task makes true of it, and polling another one leaves true, is true of all tasks
after everything has settled. -/
theorem settle_each {P : Timeline σ α β → Prop} {Q : Timeline σ α β → TaskId → Prop}
    (hdeliver : ∀ t, P t → P { t with state := m.deliver t.state })
    (hcomplete : ∀ t, P t → P { t with state := m.complete t.state })
    (hpoll : ∀ t id, P t → P (pollTask m t id))
    (hown : ∀ t id, P t → Q (pollTask m t id) id)
    (hother : ∀ t id other, P t → id ≠ other → Q t other → Q (pollTask m t id) other) (h : P t)
    (id : TaskId) (hid : id < t.tasks.size) : Q (settle m t) id := by
  obtain ⟨u, ⟨hu, hsize⟩, hs⟩ := settle_eq_pollAll
    (P := fun u => P u ∧ u.tasks.size = t.tasks.size)
    (fun u hu => ⟨hdeliver u hu.1, hu.2⟩) (fun u hu => ⟨hcomplete u hu.1, hu.2⟩)
    (fun u id hu => ⟨hpoll u id hu.1, (size_pollTask u id).trans hu.2⟩) ⟨h, rfl⟩
  rw [hs]
  exact pollAll_each hpoll hown hother hu id (hsize ▸ hid)

/-- What holds after any step has begun, from how commands begin and how tasks are added and
cancelled. A step in the background adds two tasks, its own and one that has ended already. -/
theorem launch_induction {P : Timeline σ α β → Prop}
    (hidle : ∀ t task, task.activity? = none → P t → P (t.push task).1)
    (hnames : ∀ t names, P t → P { t with names })
    (hcancel : ∀ t id, P t → P (cancelTask m t id).1)
    (hact : ∀ t command, P t → P (launch m t (.act command))) (h : P t) (step : Step κ) :
    P (launch m t step) := by
  cases step with
  | pause length => exact hidle _ _ rfl h
  | join name =>
    unfold launch startStep
    cases t.names.lookup name with
    | some id => exact hidle _ _ rfl h
    | none => exact hidle _ _ rfl h
  | cancel name =>
    unfold launch startStep
    cases t.names.lookup name with
    | some id => exact hidle _ _ rfl (hcancel t id h)
    | none => exact hidle _ _ rfl h
  | act command => exact hact t command h
  | background name step =>
    exact hidle _ _ rfl (hnames _ _ (launch_induction hidle hnames hcancel hact h step))

theorem launch_idle {P : Timeline σ α β → Prop}
    (hidle : ∀ t task, task.activity? = none → P t → P (t.push task).1)
    (hnames : ∀ t names, P t → P { t with names })
    (hcancel : ∀ t id, P t → P (cancelTask m t id).1) {step : Step κ} (hstep : step.command? = none)
    (h : P t) : P (launch m t step) := by
  induction step with
  | pause length => exact hidle _ _ rfl h
  | join name =>
    unfold launch startStep
    cases t.names.lookup name with
    | some id => exact hidle _ _ rfl h
    | none => exact hidle _ _ rfl h
  | cancel name =>
    unfold launch startStep
    cases t.names.lookup name with
    | some id => exact hidle _ _ rfl (hcancel t id h)
    | none => exact hidle _ _ rfl h
  | act command => cases hstep
  | background name step ih => exact hidle _ _ rfl (hnames _ _ (ih hstep))

/-- A step that comes down to a command begins it, and its task has the next number. -/
theorem launch_command {step : Step κ} {command : κ} (h : step.command? = some command)
    (t : Timeline σ α β) :
    (launch m t step).state = (m.start t.activities command t.state).1 ∧
      (launch m t step).tasks[t.tasks.size]? =
        some (.ofProgress (m.now (m.start t.activities command t.state).1)
          (m.start t.activities command t.state).2) ∧
      ∀ (id : TaskId) (a : α), (launch m t step).tasks[id]? = some (.pending (.act a)) →
        t.tasks[id]? = some (.pending (.act a)) ∨ id = t.tasks.size := by
  induction step with
  | pause length => cases h
  | join name => cases h
  | cancel name => cases h
  | act other =>
    obtain rfl : other = command := Option.some.inj h
    exact ⟨rfl, push_size _ _, fun _ _ ha => (act_push ha).imp id And.left⟩
  | background name step ih =>
    obtain ⟨hstate, htask, hacts⟩ := ih h
    refine ⟨hstate, ?_, fun id a ha => hacts id a (act_push_idle rfl ha)⟩
    exact (push_of_lt (t := { launch m t step with names := _ })
      (Array.getElem?_eq_some_iff.mp htask).1).trans htask

theorem Later.induction {P : Timeline σ α β → Prop}
    (hlaunch : ∀ t step, P t → P (Timeline.launch m t step))
    (hadvance : ∀ t moment, P t → P { t with state := m.advance t.state moment })
    (hdeliver : ∀ t, P t → P { t with state := m.deliver t.state })
    (hcomplete : ∀ t, P t → P { t with state := m.complete t.state })
    (hpoll : ∀ t id, P t → P (pollTask m t id)) (h : P t) (hlater : Later m t u) : P u := by
  induction hlater with
  | refl => exact h
  | launch step _ ih => exact hlaunch _ step ih
  | advance moment _ ih => exact hadvance _ moment ih
  | deliver _ ih => exact hdeliver _ ih
  | complete _ ih => exact hcomplete _ ih
  | poll id _ ih => exact hpoll _ id ih

theorem Later.trans {v : Timeline σ α β} (h : Later m t u) (k : Later m u v) : Later m t v :=
  Later.induction (fun _ step => .launch step) (fun _ moment => .advance moment)
    (fun _ => .deliver) (fun _ => .complete) (fun _ id => .poll id) h k

theorem Later.settle (h : Later m t u) : Later m t (settle m u) :=
  settle_induction (fun _ => .deliver) (fun _ => .complete) (fun _ id => .poll id) h

theorem Later.stir (h : Later m t u) (x : Move κ) : Later m t (stir m u x) := by
  cases x with
  | begin step => exact h.launch step
  | tick =>
    unfold Timeline.stir
    cases nextMoment m u with
    | some moment => exact h.advance moment
    | none => exact h

theorem Later.play (h : Later m t u) (moves : List (Move κ)) : Later m t (play m u moves) := by
  induction moves generalizing u with
  | nil => exact h
  | cons x moves ih => exact ih (h.stir x).settle

theorem play_cons (t : Timeline σ α β) (x : Move κ) (moves : List (Move κ)) :
    play m t (x :: moves) = play m (move m t x) moves := List.foldl_cons

theorem play_append (t : Timeline σ α β) (xs ys : List (Move κ)) :
    play m t (xs ++ ys) = play m (play m t xs) ys := List.foldl_append

theorem ended_settle {id : TaskId} {time : Instant} {ending : Ending β}
    (h : t.tasks[id]? = some (.ended time ending)) :
    (settle m t).tasks[id]? = some (.ended time ending) :=
  settle_induction (P := fun u => u.tasks[id]? = some (.ended time ending)) (fun _ hu => hu)
    (fun _ hu => hu) (fun _ _ hu => ended_pollTask hu) h

theorem ended_later {id : TaskId} {time : Instant} {ending : Ending β}
    (h : t.tasks[id]? = some (.ended time ending)) (hlater : Later m t u) :
    u.tasks[id]? = some (.ended time ending) := by
  refine Later.induction (m := m) (t := t)
    (P := fun u => u.tasks[id]? = some (.ended time ending)) ?_ ?_ ?_ ?_ ?_ h hlater
  · intro u step hu
    refine launch_induction (m := m)
      (P := fun u => u.tasks[id]? = some (.ended time ending)) ?_ ?_ ?_ ?_ hu step
    · intro u task _ hu
      rwa [push_of_lt (Array.getElem?_eq_some_iff.mp hu).1]
    · exact fun u names hu => hu
    · exact fun u other hu => ended_cancelTask hu
    · intro u command hu
      exact (push_of_lt (t := { u with state := _ }) (Array.getElem?_eq_some_iff.mp hu).1).trans hu
  · exact fun u moment hu => hu
  · exact fun u hu => hu
  · exact fun u hu => hu
  · exact fun u other hu => ended_pollTask hu

theorem ended_play {id : TaskId} {time : Instant} {ending : Ending β}
    (h : t.tasks[id]? = some (.ended time ending)) (moves : List (Move κ)) :
    (play m t moves).tasks[id]? = some (.ended time ending) :=
  ended_later h (Later.refl.play moves)

theorem cancelled_push {id : TaskId} {task : Task α β}
    (htask : ∀ time, task ≠ .ended time .cancelled) (h : Cancelled (t.push task).1 id) :
    Cancelled t id := by
  obtain ⟨time, h⟩ := h
  by_cases hid : id = t.tasks.size
  · subst hid
    rw [push_size] at h
    exact absurd (Option.some.inj h) (htask time)
  · exact ⟨time, by simpa [push, Array.getElem?_push, hid] using h⟩

theorem cancelled_launch {id : TaskId} {step : Step κ} (h : Cancelled (launch m t step) id) :
    Cancelled t id ∨ step.cancels = true := by
  induction step with
  | pause length => exact .inl (cancelled_push (fun _ he => by cases he) h)
  | join name =>
    unfold launch startStep at h
    cases hl : t.names.lookup name with
    | some other =>
      rw [hl] at h
      exact .inl (cancelled_push (fun _ he => by cases he) h)
    | none =>
      rw [hl] at h
      exact .inl (cancelled_push (fun _ he => by cases he) h)
  | cancel name => exact .inr rfl
  | act command =>
    refine .inl (cancelled_push (t := { t with state := _ }) (fun time he => ?_) h)
    cases hp : (m.start t.activities command t.state).2 with
    | pending rest =>
      rw [hp] at he
      cases he
    | done result =>
      rw [hp] at he
      cases he
  | background name step ih =>
    exact ih (cancelled_push (t := { launch m t step with names := _ }) (fun _ he => by cases he) h)

theorem cancelled_pollTask {id other : TaskId} (h : Cancelled (pollTask m t other) id) :
    Cancelled t id := by
  obtain ⟨time, h⟩ := h
  by_cases hid : other = id
  · subst hid
    cases ht : t.tasks[other]? with
    | none =>
      rw [pollTask_of_not_pending (by simp [ht]), ht] at h
      cases h
    | some task =>
      cases task with
      | ended since ending =>
        rw [ended_pollTask ht] at h
        cases h
        exact ⟨time, ht⟩
      | pending errand =>
        rw [(pollTask_pending ht).2] at h
        exact absurd (Option.some.inj h) (pollErrand_ne_cancelled t errand time)
  · rw [pollTask_of_ne hid] at h
    exact ⟨time, h⟩

theorem cancelled_settle {id : TaskId} (h : Cancelled (settle m t) id) : Cancelled t id :=
  settle_induction (P := fun u => Cancelled u id → Cancelled t id) (fun _ hu => hu) (fun _ hu => hu)
    (fun _ _ hu hc => hu (cancelled_pollTask hc)) (fun hc => hc) h

/-- A task that is cancelled in a play is cancelled by one of its steps. -/
theorem cancelled_play {id : TaskId} {moves : List (Move κ)} (h : Cancelled (play m t moves) id) :
    Cancelled t id ∨ ∃ step, Move.begin step ∈ moves ∧ step.cancels = true := by
  induction moves generalizing t with
  | nil => exact .inl h
  | cons x moves ih =>
    rcases ih h with hmoved | ⟨step, hstep, hc⟩
    · have hstirred : Cancelled (stir m t x) id := cancelled_settle hmoved
      cases x with
      | begin step =>
        rcases cancelled_launch hstirred with ht | hc
        · exact .inl ht
        · exact .inr ⟨step, List.mem_cons_self, hc⟩
      | tick =>
        left
        unfold stir at hstirred
        cases hn : nextMoment m t with
        | some moment =>
          rw [hn] at hstirred
          exact hstirred
        | none =>
          rw [hn] at hstirred
          exact hstirred
    · exact .inr ⟨step, List.mem_cons_of_mem x hstep, hc⟩

/-- The task of a command is cancelled by another step, which begins later. -/
theorem cancelled_step {step : Step κ} {command : κ} {moves : List (Move κ)}
    (hstep : step.command? = some command)
    (h : Cancelled (play m (move m t (.begin step)) moves) t.tasks.size) :
    ∃ other, Move.begin other ∈ moves ∧ other.cancels = true := by
  refine (cancelled_play h).resolve_left fun hbegun => ?_
  rcases cancelled_launch (cancelled_settle hbegun) with ⟨time, htask⟩ | hcancels
  · rw [Array.getElem?_size] at htask
    cases htask
  · rw [Step.cancels_of_command? hstep] at hcancels
    cases hcancels

/-- Something is to happen at the next moment: the state changes, or a task goes on. -/
theorem nextMoment_mem {moment : Instant} (h : nextMoment m t = some moment) :
    m.nextChange t.state = some moment ∨
      ∃ (id : TaskId) (task : Task α β), t.tasks[id]? = some task ∧
        task.wake m.wake = some moment := by
  rw [nextMoment, ← Array.foldl_toList] at h
  rcases Instant.foldl_earlier_mem h with hc | ⟨task, htask, hw⟩
  · exact .inl hc
  · obtain ⟨id, hid⟩ := List.mem_iff_getElem?.mp htask
    exact .inr ⟨id, task, by simpa using hid, hw⟩

theorem nextMoment_le {moment : Instant}
    (h : m.nextChange t.state = some moment ∨
      ∃ (id : TaskId) (task : Task α β), t.tasks[id]? = some task ∧
        task.wake m.wake = some moment) : ∃ next ≤ moment, nextMoment m t = some next := by
  rw [nextMoment, ← Array.foldl_toList]
  refine Instant.foldl_earlier_le (h.imp id ?_)
  rintro ⟨id, task, htask, hw⟩
  exact ⟨task, List.mem_iff_getElem?.mpr ⟨id, by simpa using htask⟩, hw⟩

theorem nextMoment_le_wake {id : TaskId} {task : Task α β} {moment wake : Instant}
    (hnext : nextMoment m t = some moment) (htask : t.tasks[id]? = some task)
    (hwake : task.wake m.wake = some wake) : moment ≤ wake := by
  obtain ⟨least, hle, hleast⟩ := nextMoment_le (m := m) (.inr ⟨id, task, htask, hwake⟩)
  obtain rfl : moment = least := Option.some.inj (hnext.symm.trans hleast)
  exact hle

/-- The end of a step is waited for tick by tick, until it has ended, nothing is to happen any more,
or so many moments have passed. -/
theorem await_cases (m : Machinery σ κ α β) (id : TaskId) (fuel : Nat) (t : Timeline σ α β) :
    ∃ count, (await m id fuel t).1 = play m t (List.replicate count .tick) ∧
      (∀ outcome, (await m id fuel t).2 = some outcome →
        (await m id fuel t).1.tasks[id]? = some (.ended outcome.time outcome.ending)) ∧
      ((await m id fuel t).2 = none →
        count = fuel ∨ nextMoment m (await m id fuel t).1 = none) := by
  induction fuel generalizing t with
  | zero => exact ⟨0, rfl, nofun, fun _ => .inl rfl⟩
  | succ fuel ih =>
    unfold await
    split
    next time ending ht =>
      refine ⟨0, rfl, fun outcome ho => ?_, nofun⟩
      obtain rfl := Option.some.inj ho
      exact ht
    · cases hn : nextMoment m t with
      | none => exact ⟨0, rfl, nofun, fun _ => .inr hn⟩
      | some moment =>
        obtain ⟨count, hplay, hended, hnone⟩ :=
          ih (Timeline.settle m { t with state := m.advance t.state moment })
        refine ⟨count + 1, ?_, hended, fun ho => (hnone ho).imp_left (congrArg (· + 1))⟩
        simpa [List.replicate_succ, play, move, Timeline.stir, hn] using hplay

theorem await_eq_play (m : Machinery σ κ α β) (id : TaskId) (fuel : Nat) (t : Timeline σ α β) :
    ∃ count, (await m id fuel t).1 = play m t (List.replicate count .tick) :=
  (await_cases m id fuel t).imp fun _ h => h.1

/-- A script of one command: the command has ended, or does not come to its end. -/
theorem runScript_act (m : Machinery σ κ α β) (state : σ) (command : κ) :
    ∃ count,
      let t := play m { state } (.begin (.act command) :: List.replicate count .tick)
      (runScript m state [.act command]).1 = t.state ∧
        ((∃ time ending, t.tasks[0]? = some (.ended time ending) ∧
            (runScript m state [.act command]).2.outcomes = [⟨time, ending⟩]) ∨
          (runScript m state [.act command]).2.outcomes = [] ∧
            (count = patience ∨ nextMoment m t = none)) := by
  unfold runScript
  generalize patience = fuel
  obtain ⟨count, hplay, hended, hnone⟩ :=
    await_cases m 0 fuel (move m { state } (.begin (.act command)))
  have htake : takeStep m fuel { state } (.act command) =
      await m 0 fuel (move m { state } (.begin (.act command))) := rfl
  have hmoved : play m { state } (.begin (.act command) :: List.replicate count .tick) =
      (await m 0 fuel (move m { state } (.begin (.act command)))).1 := hplay.symm
  refine ⟨count, ?_⟩
  unfold takeSteps
  rw [hmoved, htake]
  rcases ha : await m 0 fuel (move m { state } (.begin (.act command))) with ⟨t, none | outcome⟩ <;>
    rw [ha] at hended hnone
  · exact ⟨rfl, .inr ⟨rfl, hnone rfl⟩⟩
  · exact ⟨rfl, .inl ⟨outcome.time, outcome.ending, hended outcome rfl, rfl⟩⟩

theorem takeSteps_eq_play (m : Machinery σ κ α β) (fuel : Nat) (script : List (Step κ))
    (t : Timeline σ α β) : ∃ moves, (takeSteps m fuel t script).1 = play m t moves := by
  induction script generalizing t with
  | nil => exact ⟨[], rfl⟩
  | cons step script ih =>
    obtain ⟨count, hc⟩ := await_eq_play m ((startStep m t step).1.push (startStep m t step).2).2
      fuel (move m t (.begin step))
    have hstep : (takeStep m fuel t step).1 =
        play m t (.begin step :: List.replicate count .tick) := hc
    unfold takeSteps
    rcases hs : takeStep m fuel t step with ⟨after, outcome⟩
    rw [hs] at hstep
    cases outcome with
    | none => exact ⟨_, hstep⟩
    | some outcome =>
      obtain ⟨moves, hm⟩ := ih after
      refine ⟨.begin step :: List.replicate count .tick ++ moves, ?_⟩
      rw [play_append, ← hstep]
      exact hm

theorem runScript_eq_play (m : Machinery σ κ α β) (state : σ) (script : List (Step κ)) :
    ∃ moves, (runScript m state script).1 = (play m { state } moves).state := by
  obtain ⟨moves, h⟩ := takeSteps_eq_play m patience script { state }
  exact ⟨moves, congrArg Timeline.state h⟩

end Timeline

namespace Machinery.Punctual

open Timeline

variable {m : Machinery σ κ α β}

theorem wake_pollErrand (hm : m.Punctual) (t : Timeline σ α β) (errand : Errand α)
    (moment : Instant) (h : (pollErrand m t errand).2.wake m.wake = some moment) :
    m.now t.state < moment := by
  cases errand with
  | pause due =>
    by_cases hd : due ≤ m.now t.state
    · simp [pollErrand, hd, Task.wake] at h
    · obtain rfl : due = moment := by simpa [pollErrand, hd, Task.wake] using h
      exact Nat.lt_of_not_le hd
  | join other =>
    cases ht : t.tasks[other]? with
    | none => simp [pollErrand, ht, Task.wake] at h
    | some task => cases task <;> simp [pollErrand, ht, Task.wake] at h
  | act a =>
    cases hp : (m.poll a t.state).2 with
    | done value => simp [pollErrand, hp, Task.ofProgress, Task.wake] at h
    | pending rest =>
      refine hm.wake_poll a t.state rest hp moment ?_
      simpa [pollErrand, hp, Task.ofProgress, Task.wake] using h

theorem now_pollTask (hm : m.Punctual) (t : Timeline σ α β) (id : TaskId) :
    m.now (pollTask m t id).state = m.now t.state := by
  obtain ⟨a, -, h⟩ | ⟨-, h, -⟩ := pollTask_cases (m := m) t id
  · rw [h]
    exact hm.now_poll a t.state
  · rw [h]

theorem now_settle (hm : m.Punctual) (t : Timeline σ α β) :
    m.now (settle m t).state = m.now t.state :=
  settle_induction (P := fun u => m.now u.state = m.now t.state)
    (fun u hu => (hm.now_deliver u.state).trans hu)
    (fun u hu => (hm.now_complete u.state).trans hu)
    (fun u id hu => (hm.now_pollTask u id).trans hu) rfl

theorem now_launch (hm : m.Punctual) (t : Timeline σ α β) (step : Step κ) :
    m.now (launch m t step).state = m.now t.state := by
  refine launch_induction (m := m) (P := fun u => m.now u.state = m.now t.state)
    (fun u task _ hu => hu) (fun u names hu => hu) ?_ ?_ rfl step
  · intro u id hu
    rcases cancelTask_state (m := m) u id with ⟨a, -, hs⟩ | hs
    · rw [hs, hm.now_cancel, hu]
    · rw [hs, hu]
  · exact fun u command hu => (hm.now_start _ command u.state).trans hu

theorem timely_pollTask_of_ne (hm : m.Punctual) {t : Timeline σ α β} {id other : TaskId}
    (hne : id ≠ other) (h : Timely m t other) : Timely m (pollTask m t id) other := by
  intro task htask moment hwake
  rw [pollTask_of_ne hne] at htask
  rw [hm.now_pollTask]
  exact h task htask moment hwake

theorem timely_pollTask_self (hm : m.Punctual) (t : Timeline σ α β) (id : TaskId) :
    Timely m (pollTask m t id) id := by
  intro task htask moment hwake
  rw [hm.now_pollTask]
  cases ht : t.tasks[id]? with
  | none =>
    rw [pollTask_of_not_pending (by simp [ht]), ht] at htask
    cases htask
  | some before =>
    cases before with
    | ended time ending =>
      rw [ended_pollTask ht] at htask
      cases htask
      cases hwake
    | pending errand =>
      obtain rfl := Option.some.inj ((pollTask_pending ht).2.symm.trans htask)
      exact wake_pollErrand hm t errand moment hwake

/-- After everything has settled, what is still to be done is to be done later. -/
theorem timely_settle (hm : m.Punctual) (t : Timeline σ α β) (id : TaskId) :
    Timely m (settle m t) id := by
  intro task htask
  have hsize : (settle m t).tasks.size = t.tasks.size :=
    settle_induction (P := fun u => u.tasks.size = t.tasks.size) (fun u hu => hu) (fun u hu => hu)
      (fun u id hu => (size_pollTask u id).trans hu) rfl
  have hid : id < t.tasks.size := hsize ▸ (Array.getElem?_eq_some_iff.mp htask).1
  exact settle_each (P := fun _ => True) (Q := Timely m) (fun _ _ => trivial) (fun _ _ => trivial)
    (fun _ _ _ => trivial) (fun u id _ => hm.timely_pollTask_self u id)
    (fun u id other _ => hm.timely_pollTask_of_ne) trivial id hid task htask

theorem timely_play (hm : m.Punctual) {t : Timeline σ α β} (h : ∀ id, Timely m t id)
    (moves : List (Move κ)) (id : TaskId) : Timely m (play m t moves) id := by
  induction moves generalizing t with
  | nil => exact h id
  | cons x moves ih => exact ih (hm.timely_settle (stir m t x))

end Machinery.Punctual

end Overseer
