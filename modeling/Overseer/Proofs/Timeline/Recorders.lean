import Overseer.Proofs.Timeline.Moves

/-!
# Records beside a timeline

Whoever watches a timeline can keep a record beside its state: of each command when it begins, and
of each activity when it goes on (`Machinery.recorded`). The record changes nothing of what it is
about: without it every play goes on as it does with it (`Timeline.plain_play`). -/

namespace Overseer

variable {σ κ α β ρ : Type}

structure Recorder (σ κ α ρ : Type) where
  begun : List α → κ → σ → ρ → ρ
  polled : α → σ → ρ → ρ

def Machinery.recorded (m : Machinery σ κ α β) (r : Recorder σ κ α ρ) :
    Machinery (σ × ρ) κ α β where
  now s := m.now s.1
  nextChange s := m.nextChange s.1
  advance s moment := (m.advance s.1 moment, s.2)
  deliver s := (m.deliver s.1, s.2)
  complete s := (m.complete s.1, s.2)
  start peers command s :=
    (((m.start peers command s.1).1, r.begun peers command s.1 s.2),
      (m.start peers command s.1).2)
  poll a s := (((m.poll a s.1).1, r.polled a s.1 s.2), (m.poll a s.1).2)
  wake := m.wake
  cancel a s := (m.cancel a s.1, s.2)

namespace Timeline

def plain (t : Timeline (σ × ρ) α β) : Timeline σ α β where
  state := t.state.1
  tasks := t.tasks
  names := t.names

def recording (t : Timeline σ α β) (record : ρ) : Timeline (σ × ρ) α β where
  state := (t.state, record)
  tasks := t.tasks
  names := t.names

variable (m : Machinery σ κ α β) (r : Recorder σ κ α ρ) (t : Timeline (σ × ρ) α β)

theorem plain_cancelTask (id : TaskId) :
    (cancelTask (m.recorded r) t id).1.plain = (cancelTask m t.plain id).1 ∧
      (cancelTask (m.recorded r) t id).2 = (cancelTask m t.plain id).2 := by
  unfold cancelTask
  cases ht : t.tasks[id]? with
  | none => simp [plain, ht]
  | some task =>
    cases task with
    | ended time ending => simp [plain, ht]
    | pending errand => cases errand <;> simp [plain, ht, Machinery.recorded]

theorem plain_startStep (step : Step κ) :
    (startStep (m.recorded r) t step).1.plain = (startStep m t.plain step).1 ∧
      (startStep (m.recorded r) t step).2 = (startStep m t.plain step).2 := by
  induction step generalizing t with
  | pause length => exact ⟨rfl, rfl⟩
  | act command => exact ⟨rfl, rfl⟩
  | join name =>
    cases hl : t.names.lookup name <;> simp [startStep, plain, hl, Machinery.recorded]
  | cancel name =>
    cases hl : t.names.lookup name with
    | none => simp [startStep, plain, hl, Machinery.recorded]
    | some id =>
      obtain ⟨hstate, hpossible⟩ := plain_cancelTask m r t id
      simp only [startStep, hl, show t.plain.names.lookup name = some id from hl]
      rw [← hstate, ← hpossible]
      exact ⟨rfl, rfl⟩
  | background name step ih =>
    obtain ⟨hstate, htask⟩ := ih t
    simp only [startStep]
    rw [← hstate, ← htask]
    exact ⟨rfl, rfl⟩

theorem plain_launch (step : Step κ) :
    (launch (m.recorded r) t step).plain = launch m t.plain step := by
  obtain ⟨hstate, htask⟩ := plain_startStep m r t step
  unfold launch
  dsimp only
  rw [← hstate, ← htask]
  rfl

theorem plain_pollErrand (errand : Errand α) :
    (pollErrand (m.recorded r) t errand).1.1 = (pollErrand m t.plain errand).1 ∧
      (pollErrand (m.recorded r) t errand).2 = (pollErrand m t.plain errand).2 := by
  cases errand with
  | pause moment =>
    by_cases h : moment ≤ m.now t.state.1 <;> simp [pollErrand, plain, Machinery.recorded, h]
  | join id =>
    cases ht : t.tasks[id]? with
    | none => simp [pollErrand, plain, ht]
    | some task => cases task <;> simp [pollErrand, plain, ht, Machinery.recorded]
  | act a => exact ⟨rfl, rfl⟩

theorem plain_pollTask (id : TaskId) :
    (pollTask (m.recorded r) t id).plain = pollTask m t.plain id := by
  unfold pollTask
  cases ht : t.tasks[id]? with
  | none => simp [plain, ht]
  | some task =>
    cases task with
    | ended time ending => simp [plain, ht]
    | pending errand =>
      obtain ⟨hstate, htask⟩ := plain_pollErrand m r t errand
      rw [show t.plain.tasks[id]? = some (.pending errand) from ht]
      dsimp only
      rw [← hstate, ← htask]
      rfl

theorem plain_pollAll : (pollAll (m.recorded r) t).plain = pollAll m t.plain := by
  have hall : ∀ (ids : List TaskId) (t : Timeline (σ × ρ) α β),
      (ids.foldl (pollTask (m.recorded r)) t).plain = ids.foldl (pollTask m) t.plain := by
    intro ids
    induction ids with
    | nil => exact fun t => rfl
    | cons id ids ih =>
      intro t
      rw [List.foldl_cons, ih, plain_pollTask]
      rfl
  exact hall _ t

theorem plain_rounds (count : Nat) :
    (rounds (m.recorded r) count t).plain = rounds m count t.plain := by
  induction count generalizing t with
  | zero => rfl
  | succ count ih =>
    rw [rounds, ih, rounds]
    congr 1
    unfold round
    dsimp only
    rw [plain_pollAll]
    congr 1
    have hfirst := plain_pollAll m r { t with state := (m.recorded r).deliver t.state }
    exact congrArg (fun u : Timeline σ α β => { u with state := m.complete (m.deliver u.state) })
      hfirst

theorem plain_settle : (settle (m.recorded r) t).plain = settle m t.plain :=
  plain_rounds m r t _

theorem plain_stir (x : Move κ) : (stir (m.recorded r) t x).plain = stir m t.plain x := by
  cases x with
  | begin step => exact plain_launch m r t step
  | tick =>
    have hnext : nextMoment (m.recorded r) t = nextMoment m t.plain := rfl
    unfold stir
    rw [hnext]
    cases nextMoment m t.plain <;> rfl

theorem plain_move (x : Move κ) : (move (m.recorded r) t x).plain = move m t.plain x := by
  rw [move, plain_settle, plain_stir]
  rfl

theorem plain_play (moves : List (Move κ)) :
    (play (m.recorded r) t moves).plain = play m t.plain moves := by
  induction moves generalizing t with
  | nil => rfl
  | cons x moves ih => exact (ih _).trans (congrArg (play m · moves) (plain_move m r t x))

/-- What a timeline with a record comes to is what it comes to without. -/
theorem Later.plain {m : Machinery σ κ α β} {r : Recorder σ κ α ρ} {t u : Timeline (σ × ρ) α β}
    (h : Later (m.recorded r) t u) : Later m t.plain u.plain := by
  refine Later.induction (m := m.recorded r) (P := fun u => Later m t.plain u.plain) ?_ ?_ ?_ ?_ ?_
    .refl h
  · exact fun u step hu => plain_launch m r u step ▸ hu.launch step
  · exact fun u moment hu => hu.advance moment
  · exact fun u hu => hu.deliver
  · exact fun u hu => hu.complete
  · exact fun u id hu => plain_pollTask m r u id ▸ hu.poll id

end Timeline

end Overseer
