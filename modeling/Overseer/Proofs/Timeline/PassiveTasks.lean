import Overseer.Proofs.Timeline.Moves

/-!
# Tasks that only look on

An activity that only looks at the state until it is done makes no difference to anybody else
(`Machinery.Onlooker`): whether it goes on, has ended or has been cancelled, the state comes to the
same, and so do all tasks but those that wait for others (`Alike`). The number of rounds in which
everything settles may be another one then, but further rounds change nothing once there is nothing
left to do (`Still`).
-/

namespace Overseer

variable {σ κ α β : Type}

theorem setIfInBounds_of_getElem? {γ : Type} {xs : Array γ} {i : Nat} {x : γ}
    (h : xs[i]? = some x) : xs.setIfInBounds i x = xs := by
  obtain ⟨hlt, hget⟩ := Array.getElem?_eq_some_iff.mp h
  rw [← hget, Array.setIfInBounds, dif_pos hlt, Array.set_getElem_self]

theorem modify_of_getElem? {γ : Type} {xs : Array γ} {i : Nat} {f : γ → γ}
    (h : ∀ x, xs[i]? = some x → f x = x) : xs.modify i f = xs := by
  refine Array.ext_getElem? fun j => ?_
  rw [Array.getElem?_modify]
  split
  next he =>
    subst he
    cases hx : xs[i]? with
    | none => rfl
    | some x => rw [Option.map_some, h x hx]
  · rfl

structure Machinery.Onlooker (m : Machinery σ κ α β) (a : α) : Prop where
  poll : ∀ s, m.poll a s = (s, .pending a) ∨ ∃ result, m.poll a s = (s, .done result)
  cancel : ∀ s, m.cancel a s = s
  wake : m.wake a = none

namespace Timeline

/-- A task that does nothing to the state: it has ended, waits for another one or looks on. -/
inductive Passive (a : α) : Task α β → Prop where
  | ended {time ending} : Passive a (.ended time ending)
  | join {id} : Passive a (.pending (.join id))
  | looking : Passive a (.pending (.act a))

def Similar (a : α) (x y : Task α β) : Prop := x = y ∨ Passive a x ∧ Passive a y

structure Alike (a : α) (t u : Timeline σ α β) : Prop where
  state : u.state = t.state
  names : u.names = t.names
  size : u.tasks.size = t.tasks.size
  tasks : ∀ (id : TaskId) x y, t.tasks[id]? = some x → u.tasks[id]? = some y → Similar a x y

/-- A timeline in which nothing is left to do at this moment, but that tasks may hear of the ends of
others. -/
structure Still (m : Machinery σ κ α β) (t : Timeline σ α β) : Prop where
  deliver : m.deliver t.state = t.state
  complete : m.complete t.state = t.state
  poll : ∀ (id : TaskId) b, t.tasks[id]? = some (.pending (.act b)) →
    m.poll b t.state = (t.state, .pending b)
  pause : ∀ (id : TaskId) moment, t.tasks[id]? = some (.pending (.pause moment)) →
    m.now t.state < moment

variable {m : Machinery σ κ α β} {a : α} {t u v : Timeline σ α β} {x y z : Task α β} {id : TaskId}

theorem Similar.symm (h : Similar a x y) : Similar a y x := h.imp Eq.symm And.symm

theorem Similar.trans (h : Similar a x y) (k : Similar a y z) : Similar a x z := by
  rcases h with rfl | ⟨hx, hy⟩
  · exact k
  · rcases k with rfl | ⟨-, hz⟩
    · exact .inr ⟨hx, hy⟩
    · exact .inr ⟨hx, hz⟩

namespace Alike

theorem refl (a : α) (t : Timeline σ α β) : Alike a t t :=
  ⟨rfl, rfl, rfl, fun _ _ _ hx hy => .inl (Option.some.inj (hx.symm.trans hy))⟩

theorem symm (h : Alike a t u) : Alike a u t :=
  ⟨h.state.symm, h.names.symm, h.size.symm, fun id x y hx hy => (h.tasks id y x hy hx).symm⟩

theorem trans (h : Alike a t u) (k : Alike a u v) : Alike a t v where
  state := k.state.trans h.state
  names := k.names.trans h.names
  size := k.size.trans h.size
  tasks id x z hx hz := by
    have hlt : id < u.tasks.size := h.size ▸ (Array.getElem?_eq_some_iff.mp hx).1
    have hy := Array.getElem?_eq_getElem hlt
    exact (h.tasks id x _ hx hy).trans (k.tasks id _ z hy hz)

theorem onState (h : Alike a t u) (f : σ → σ) :
    Alike a { t with state := f t.state } { u with state := f u.state } :=
  ⟨congrArg f h.state, h.names, h.size, h.tasks⟩

theorem task (h : Alike a t u) (hx : t.tasks[id]? = some x) :
    ∃ y, u.tasks[id]? = some y ∧ Similar a x y := by
  have hlt : id < u.tasks.size := h.size ▸ (Array.getElem?_eq_some_iff.mp hx).1
  exact ⟨_, Array.getElem?_eq_getElem hlt, h.tasks id x _ hx (Array.getElem?_eq_getElem hlt)⟩

theorem none (h : Alike a t u) (hn : t.tasks[id]? = none) : u.tasks[id]? = none := by
  rw [Array.getElem?_eq_none_iff] at hn ⊢
  exact h.size.symm ▸ hn

/-- A task in the same place of each: what becomes of the timelines is alike if what becomes of the
tasks is. -/
theorem replace (h : Alike a t u) {s : σ} (hs : Similar a x y) :
    Alike a { t with state := s, tasks := t.tasks.setIfInBounds id x }
      { u with state := s, tasks := u.tasks.setIfInBounds id y } where
  state := rfl
  names := h.names
  size := by simp [h.size]
  tasks other x' y' hx hy := by
    by_cases he : id = other
    · subst he
      dsimp only at hx hy
      rw [Array.getElem?_setIfInBounds, if_pos rfl] at hx hy
      obtain ⟨-, hx⟩ := Option.ite_none_right_eq_some.mp hx
      obtain ⟨-, hy⟩ := Option.ite_none_right_eq_some.mp hy
      obtain rfl := Option.some.inj hx
      obtain rfl := Option.some.inj hy
      exact hs
    · dsimp only at hx hy
      rw [Array.getElem?_setIfInBounds_ne he] at hx hy
      exact h.tasks other x' y' hx hy

theorem replace_right (h : Alike a t u) (hx : t.tasks[id]? = some x) (hs : Similar a x y) :
    Alike a t { u with state := t.state, tasks := u.tasks.setIfInBounds id y } := by
  have hreplaced : Alike a { t with state := t.state, tasks := t.tasks.setIfInBounds id x }
      { u with state := t.state, tasks := u.tasks.setIfInBounds id y } := h.replace hs
  rwa [setIfInBounds_of_getElem? hx] at hreplaced

theorem push (h : Alike a t u) (hs : Similar a x y) : Alike a (t.push x).1 (u.push y).1 where
  state := h.state
  names := h.names
  size := by simp [Timeline.push, h.size]
  tasks id x' y' hx hy := by
    by_cases he : id = t.tasks.size
    · subst he
      rw [push_size] at hx
      have hy : (u.push y).1.tasks[u.tasks.size]? = some y' := by rwa [h.size]
      rw [push_size] at hy
      obtain rfl := Option.some.inj hx
      obtain rfl := Option.some.inj hy
      exact hs
    · have hne : id ≠ u.tasks.size := h.size ▸ he
      simp only [Timeline.push, Array.getElem?_push, if_neg he] at hx
      simp only [Timeline.push, Array.getElem?_push, if_neg hne] at hy
      exact h.tasks id x' y' hx hy

end Alike

theorem Passive.pollErrand (ha : m.Onlooker a) {errand : Errand α}
    (h : Passive a (.pending errand : Task α β)) (t : Timeline σ α β) :
    (pollErrand m t errand).1 = t.state ∧ Passive a (pollErrand m t errand).2 := by
  cases h with
  | join =>
    unfold Timeline.pollErrand
    dsimp only
    split
    · exact ⟨rfl, .ended⟩
    · exact ⟨rfl, .join⟩
  | looking =>
    have hact : Timeline.pollErrand m t (.act a) =
      ((m.poll a t.state).1, .ofProgress (m.now (m.poll a t.state).1) (m.poll a t.state).2) := rfl
    rw [hact]
    rcases ha.poll t.state with hp | ⟨result, hp⟩
    · rw [hp]
      exact ⟨rfl, .looking⟩
    · rw [hp]
      exact ⟨rfl, .ended⟩

theorem Alike.pollErrand (ha : m.Onlooker a) (h : Alike a t u) {errand other : Errand α}
    (hs : Similar a (.pending errand : Task α β) (.pending other)) :
    (pollErrand m u other).1 = (pollErrand m t errand).1 ∧
      Similar a (pollErrand m t errand).2 (pollErrand m u other).2 := by
  have hpassive : Passive a (.pending errand : Task α β) → Passive a (.pending other : Task α β) →
      (Timeline.pollErrand m u other).1 = (Timeline.pollErrand m t errand).1 ∧
        Similar a (Timeline.pollErrand m t errand).2 (Timeline.pollErrand m u other).2 := by
    intro hx hy
    obtain ⟨hts, htp⟩ := hx.pollErrand ha t
    obtain ⟨hus, hup⟩ := hy.pollErrand ha u
    exact ⟨hus.trans (h.state.trans hts.symm), .inr ⟨htp, hup⟩⟩
  rcases hs with heq | ⟨hx, hy⟩
  · obtain rfl := Task.pending.inj heq
    cases errand with
    | join id => exact hpassive .join .join
    | pause moment =>
      have heq :
          Timeline.pollErrand m u (.pause moment) = Timeline.pollErrand m t (.pause moment) := by
        simp only [Timeline.pollErrand, h.state]
      rw [heq]
      exact ⟨rfl, .inl rfl⟩
    | act b =>
      have heq : Timeline.pollErrand m u (.act b) = Timeline.pollErrand m t (.act b) := by
        simp only [Timeline.pollErrand, h.state]
      rw [heq]
      exact ⟨rfl, .inl rfl⟩
  · exact hpassive hx hy

theorem pollTask_eq {errand : Errand α} (h : t.tasks[id]? = some (.pending errand)) :
    pollTask m t id = { t with state := (pollErrand m t errand).1
                               tasks := t.tasks.setIfInBounds id (pollErrand m t errand).2 } := by
  unfold pollTask
  rw [h]

/-- A task that has ended and one that does nothing to the state: the timelines stay alike when the
latter goes on. -/
theorem Alike.pollTask_ended (ha : m.Onlooker a) (h : Alike a t u) {time : Instant}
    {ending : Ending β} (hx : t.tasks[id]? = some (.ended time ending)) :
    Alike a (pollTask m t id) (pollTask m u id) := by
  have ht : pollTask m t id = t := by
    refine pollTask_of_not_pending fun errand he => ?_
    rw [hx] at he
    cases he
  obtain ⟨y, hy, hs⟩ := h.task hx
  cases y with
  | ended since other =>
    have hu : pollTask m u id = u := by
      refine pollTask_of_not_pending fun errand he => ?_
      rw [hy] at he
      cases he
    rw [ht, hu]
    exact h
  | pending errand =>
    have hpassive : Passive a (.pending errand : Task α β) := by
      rcases hs with heq | ⟨-, hp⟩
      · cases heq
      · exact hp
    obtain ⟨hstate, hrest⟩ := hpassive.pollErrand ha u
    rw [ht, pollTask_eq hy, hstate, h.state]
    exact h.replace_right hx (.inr ⟨.ended, hrest⟩)

theorem Alike.pollTask (ha : m.Onlooker a) (h : Alike a t u) (id : TaskId) :
    Alike a (pollTask m t id) (pollTask m u id) := by
  cases hx : t.tasks[id]? with
  | none =>
    rw [pollTask_of_not_pending (by simp [hx]), pollTask_of_not_pending (by simp [h.none hx])]
    exact h
  | some x =>
    obtain ⟨y, hy, hs⟩ := h.task hx
    cases x with
    | ended time ending => exact h.pollTask_ended ha hx
    | pending errand =>
      cases y with
      | ended time ending => exact (h.symm.pollTask_ended ha hy).symm
      | pending other =>
        obtain ⟨hstate, hsimilar⟩ := h.pollErrand ha hs
        rw [pollTask_eq hx, pollTask_eq hy, hstate]
        exact h.replace hsimilar

theorem Alike.pollAll (ha : m.Onlooker a) (h : Alike a t u) :
    Alike a (pollAll m t) (pollAll m u) := by
  have hall : ∀ (ids : List TaskId) (t u : Timeline σ α β), Alike a t u →
      Alike a (ids.foldl (Timeline.pollTask m) t) (ids.foldl (Timeline.pollTask m) u) := by
    intro ids
    induction ids with
    | nil => exact fun _ _ h => h
    | cons id ids ih => exact fun t u h => ih _ _ (h.pollTask ha id)
  unfold Timeline.pollAll
  rw [h.size]
  exact hall _ t u h

theorem Alike.rounds (ha : m.Onlooker a) (count : Nat) (h : Alike a t u) :
    Alike a (rounds m count t) (rounds m count u) := by
  induction count generalizing t u with
  | zero => exact h
  | succ count ih =>
    have hfirst := (h.onState m.deliver).pollAll ha
    exact ih ((hfirst.onState fun s => m.complete (m.deliver s)).pollAll ha)

/-- Where nothing is left to do, a task that goes on may only hear of the end of another one. -/
theorem Still.pollTask (h : Still m t) (a : α) (id : TaskId) :
    Alike a t (pollTask m t id) ∧ Still m (pollTask m t id) := by
  obtain ⟨hstate, htask⟩ : (Timeline.pollTask m t id).state = t.state ∧
      ((Timeline.pollTask m t id).tasks[id]? = t.tasks[id]? ∨
        ∃ other x, t.tasks[id]? = some (.pending (.join other)) ∧
          (Timeline.pollTask m t id).tasks[id]? = some x ∧ x.activity? = none ∧
          Passive a x ∧ ∀ moment, x ≠ .pending (.pause moment)) := by
    cases hx : t.tasks[id]? with
    | none =>
      rw [pollTask_of_not_pending (by simp [hx])]
      exact ⟨rfl, .inl hx⟩
    | some x =>
      cases x with
      | ended time ending =>
        rw [pollTask_of_not_pending (by simp [hx])]
        exact ⟨rfl, .inl hx⟩
      | pending errand =>
        obtain ⟨hs, ht⟩ := pollTask_pending (m := m) hx
        rw [hs, ht]
        cases errand with
        | pause moment =>
          have hlate := Nat.not_le.mpr (h.pause id moment hx)
          simp [pollErrand, hlate]
        | act b => simp [pollErrand, h.poll id b hx, Task.ofProgress]
        | join other =>
          refine ⟨?_, .inr ⟨other, _, rfl, rfl, ?_⟩⟩
          · unfold pollErrand
            dsimp only
            split <;> rfl
          · unfold pollErrand
            dsimp only
            split
            · exact ⟨rfl, .ended, by simp⟩
            · exact ⟨rfl, .join, by simp⟩
  -- only the task that goes on can change, and only if it has been joined to one that is over
  have hsame : ∀ (other : TaskId) x, (Timeline.pollTask m t id).tasks[other]? = some x →
      t.tasks[other]? = some x ∨
        (∃ joined, t.tasks[other]? = some (.pending (.join joined))) ∧ x.activity? = none ∧
          Passive a x ∧ ∀ moment, x ≠ .pending (.pause moment) := by
    intro other x hx
    by_cases he : id = other
    · subst he
      rcases htask with heq | ⟨joined, y, hjoin, hy, hidle⟩
      · exact .inl (heq ▸ hx)
      · obtain rfl := Option.some.inj (hy.symm.trans hx)
        exact .inr ⟨⟨joined, hjoin⟩, hidle⟩
    · exact .inl ((pollTask_of_ne he).symm.trans hx)
  refine ⟨⟨hstate, ?_, size_pollTask t id, fun other x y hx hy => ?_⟩, ?_, ?_,
    fun other b hb => ?_, fun other moment hm => ?_⟩
  · unfold Timeline.pollTask
    split <;> rfl
  · rcases hsame other y hy with hy | ⟨⟨joined, hjoin⟩, -, hpassive, -⟩
    · exact .inl (Option.some.inj (hx.symm.trans hy))
    · obtain rfl := Option.some.inj (hx.symm.trans hjoin)
      exact .inr ⟨.join, hpassive⟩
  · rw [hstate, h.deliver]
  · rw [hstate, h.complete]
  · rw [hstate]
    rcases hsame other _ hb with hb | ⟨-, hidle, -⟩
    · exact h.poll other b hb
    · cases hidle
  · rw [hstate]
    rcases hsame other _ hm with hm | ⟨-, -, -, hpause⟩
    · exact h.pause other moment hm
    · exact absurd rfl (hpause moment)

theorem Still.rounds (h : Still m t) (a : α) (count : Nat) : Alike a t (rounds m count t) := by
  have hpollAll : ∀ {t : Timeline σ α β}, Still m t →
      Alike a t (Timeline.pollAll m t) ∧ Still m (Timeline.pollAll m t) := by
    intro t h
    refine pollAll_induction (m := m) (P := fun u => Alike a t u ∧ Still m u) ?_ ⟨.refl a t, h⟩
    rintro u id ⟨hu, hstill⟩
    obtain ⟨hnext, hrest⟩ := hstill.pollTask a id
    exact ⟨hu.trans hnext, hrest⟩
  induction count generalizing t with
  | zero => exact .refl a t
  | succ count ih =>
    have hdelivered : { t with state := m.deliver t.state } = t := by rw [h.deliver]
    obtain ⟨hfirst, hstill⟩ := hpollAll h
    have hcompleted : { Timeline.pollAll m t with
        state := m.complete (m.deliver (Timeline.pollAll m t).state) } = Timeline.pollAll m t := by
      rw [hstill.deliver, hstill.complete]
    obtain ⟨hsecond, hrest⟩ := hpollAll hstill
    rw [Timeline.rounds, Timeline.round, hdelivered, hcompleted]
    exact (hfirst.trans hsecond).trans (ih hrest)

theorem rounds_add (i j : Nat) (t : Timeline σ α β) :
    rounds m (i + j) t = rounds m j (rounds m i t) := by
  induction i generalizing t with
  | zero => rw [Nat.zero_add, rounds]
  | succ i ih => rw [Nat.succ_add, rounds, rounds, ih]

theorem Alike.settle (ha : m.Onlooker a) (h : Alike a t u) (ht : Still m (settle m t))
    (hu : Still m (settle m u)) : Alike a (settle m t) (settle m u) := by
  have hless : ∀ {t u : Timeline σ α β}, Alike a t u → Still m (Timeline.settle m t) →
      t.pendingCount ≤ u.pendingCount → Alike a (Timeline.settle m t) (Timeline.settle m u) := by
    intro t u h ht hle
    have hcount :
        u.pendingCount + 2 = (t.pendingCount + 2) + (u.pendingCount - t.pendingCount) := by
      omega
    have hmore := ht.rounds a (u.pendingCount - t.pendingCount)
    rw [Timeline.settle, ← rounds_add, ← hcount] at hmore
    exact hmore.trans (h.rounds ha (u.pendingCount + 2))
  rcases Nat.le_total t.pendingCount u.pendingCount with hle | hle
  · exact hless h ht hle
  · exact (hless h.symm hu hle).symm

theorem Passive.cancelTask (ha : m.Onlooker a) {errand : Errand α}
    (h : Passive a (.pending errand : Task α β)) (hx : t.tasks[id]? = some (.pending errand)) :
    (cancelTask m t id).1 =
      { t with tasks := t.tasks.setIfInBounds id (.ended (m.now t.state) .cancelled) } := by
  unfold Timeline.cancelTask
  rw [hx]
  cases h with
  | join => rfl
  | looking =>
    dsimp only
    rw [ha.cancel]

theorem cancelTask_ended {time : Instant} {ending : Ending β}
    (hx : t.tasks[id]? = some (.ended time ending)) : cancelTask m t id = (t, false) := by
  unfold cancelTask
  rw [hx]

theorem Alike.cancelTask_ended (ha : m.Onlooker a) (h : Alike a t u) {time : Instant}
    {ending : Ending β} (hx : t.tasks[id]? = some (.ended time ending)) :
    Alike a (cancelTask m t id).1 (cancelTask m u id).1 := by
  rw [Timeline.cancelTask_ended hx]
  obtain ⟨y, hy, hs⟩ := h.task hx
  cases y with
  | ended since other =>
    rw [Timeline.cancelTask_ended hy]
    exact h
  | pending errand =>
    rcases hs with heq | ⟨-, hpassive⟩
    · cases heq
    · rw [hpassive.cancelTask ha hy, h.state]
      exact h.replace_right hx (.inr ⟨.ended, .ended⟩)

theorem Alike.cancelTask (ha : m.Onlooker a) (h : Alike a t u) (id : TaskId) :
    Alike a (cancelTask m t id).1 (cancelTask m u id).1 := by
  cases hx : t.tasks[id]? with
  | none =>
    unfold Timeline.cancelTask
    rw [hx, h.none hx]
    exact h
  | some x =>
    obtain ⟨y, hy, hs⟩ := h.task hx
    cases x with
    | ended time ending => exact h.cancelTask_ended ha hx
    | pending errand =>
      cases y with
      | ended time ending => exact (h.symm.cancelTask_ended ha hy).symm
      | pending other =>
        rcases hs with heq | ⟨hp, hq⟩
        · obtain rfl := Task.pending.inj heq
          unfold Timeline.cancelTask
          rw [hx, hy, h.state]
          exact h.replace (.inl rfl)
        · rw [hp.cancelTask ha hx, hq.cancelTask ha hy, h.state]
          exact h.replace (.inl rfl)

def Alike.Starting (m : Machinery σ κ α β) (t u : Timeline σ α β) : Prop :=
  ∀ command, m.start u.activities command t.state = m.start t.activities command t.state

theorem Alike.startStep (ha : m.Onlooker a) (h : Alike a t u) (hstart : Starting m t u)
    (step : Step κ) :
    Alike a (startStep m t step).1 (startStep m u step).1 ∧
      Similar a (startStep m t step).2 (startStep m u step).2 := by
  have hnow : m.now u.state = m.now t.state := congrArg m.now h.state
  induction step with
  | pause length => exact ⟨h, .inl (by rw [Timeline.startStep, Timeline.startStep, hnow])⟩
  | join name =>
    unfold Timeline.startStep
    rw [h.names]
    cases t.names.lookup name with
    | some id => exact ⟨h, .inl rfl⟩
    | none => exact ⟨h, .inl (by rw [hnow])⟩
  | cancel name =>
    unfold Timeline.startStep
    rw [h.names]
    cases t.names.lookup name with
    | some id => exact ⟨h.cancelTask ha id, .inr ⟨.ended, .ended⟩⟩
    | none => exact ⟨h, .inl (by rw [hnow])⟩
  | act command =>
    unfold Timeline.startStep
    rw [h.state, hstart command]
    exact ⟨⟨rfl, h.names, h.size, h.tasks⟩, .inl rfl⟩
  | background name step ih =>
    obtain ⟨hrest, hs⟩ := ih
    have hpushed := hrest.push hs
    unfold Timeline.startStep
    refine ⟨⟨hpushed.state, ?_, hpushed.size, hpushed.tasks⟩, .inr ⟨.ended, .ended⟩⟩
    dsimp only
    rw [hpushed.names]
    simp only [Timeline.push, hrest.size]

theorem Alike.launch (ha : m.Onlooker a) (h : Alike a t u) (hstart : Starting m t u)
    (step : Step κ) : Alike a (launch m t step) (launch m u step) := by
  obtain ⟨hrest, hs⟩ := h.startStep ha hstart step
  exact hrest.push hs

theorem Passive.wake (ha : m.Onlooker a) (h : Passive a x) : x.wake m.wake = none := by
  cases h with
  | ended => rfl
  | join => rfl
  | looking => exact ha.wake

theorem Alike.nextMoment (ha : m.Onlooker a) (h : Alike a t u) :
    nextMoment m u = nextMoment m t := by
  have hwakes : u.tasks.toList.map (·.wake m.wake) = t.tasks.toList.map (·.wake m.wake) := by
    refine List.ext_getElem? fun id => ?_
    rw [List.getElem?_map, List.getElem?_map, Array.getElem?_toList, Array.getElem?_toList]
    cases hx : t.tasks[id]? with
    | none => rw [h.none hx]
    | some x =>
      obtain ⟨y, hy, hs⟩ := h.task hx
      rw [hy]
      rcases hs with rfl | ⟨hp, hq⟩
      · rfl
      · simp only [Option.map_some, hp.wake ha, hq.wake ha]
  have hfold : ∀ t : Timeline σ α β, Timeline.nextMoment m t =
      (t.tasks.toList.map (·.wake m.wake)).foldl Instant.earlier (m.nextChange t.state) := by
    intro t
    rw [List.foldl_map, Array.foldl_toList]
    rfl
  rw [hfold, hfold, hwakes, h.state]

theorem Alike.stir (ha : m.Onlooker a) (h : Alike a t u) (hstart : Starting m t u) (x : Move κ) :
    Alike a (stir m t x) (stir m u x) := by
  cases x with
  | begin step => exact h.launch ha hstart step
  | tick =>
    unfold Timeline.stir
    rw [h.nextMoment ha]
    cases Timeline.nextMoment m t with
    | none => exact h
    | some moment => exact h.onState (m.advance · moment)

/-- An activity that waits and is cancelled leaves everything as it would have been if nobody had
been cancelled. -/
theorem alike_cancel (ha : m.Onlooker a) {name nobody : String}
    (hname : t.names.lookup name = some id) (hid : t.tasks[id]? = some (.pending (.act a)))
    (hnobody : t.names.lookup nobody = none) :
    Alike a (launch m t (.cancel name)) (launch m t (.cancel nobody)) := by
  unfold launch startStep
  rw [hname, hnobody]
  dsimp only
  refine Alike.push ?_ (.inr ⟨.ended, .ended⟩)
  rw [Passive.looking.cancelTask ha hid]
  exact ((Alike.refl a t).replace_right hid (.inr ⟨.looking, .ended⟩)).symm

end Timeline

end Overseer
