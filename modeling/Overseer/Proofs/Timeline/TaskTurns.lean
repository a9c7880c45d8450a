import Overseer.Proofs.Timeline.Moves

/-!
# The turns of a task

Many tasks go on in a play. The turns of one of them are the pairs of states before and after it
goes on, so that what this task does can be told from what the others do (`turnsOfStep`). What holds
of a task and its turns so far while everything settles is proved step by step (`Kept`). Where it is
a matter of the task and of the time only, it is proved by how the task goes on, and by how time
passes, alone: all else that happens happens at one moment and leaves the task alone (`Upheld`).
-/

namespace Overseer.Timeline

variable {σ κ α β : Type}

section

variable (m : Machinery σ κ α β) (id : TaskId)

def turnsOf : List TaskId → Timeline σ α β → List (σ × σ)
  | [], _ => []
  | other :: rest, t =>
    let u := pollTask m t other
    if other = id ∧ t.tasks[id]?.any Task.isPending then (t.state, u.state) :: turnsOf rest u
    else turnsOf rest u

def turnsOfAll (t : Timeline σ α β) : List (σ × σ) :=
  turnsOf m id (List.range t.tasks.size) t

def turnsOfRound (t : Timeline σ α β) : List (σ × σ) :=
  let delivered : Timeline σ α β := { t with state := m.deliver t.state }
  let polled := pollAll m delivered
  turnsOfAll m id delivered ++
    turnsOfAll m id { polled with state := m.complete (m.deliver polled.state) }

def turnsOfRounds : (count : Nat) → Timeline σ α β → List (σ × σ)
  | 0, _ => []
  | count + 1, t => turnsOfRound m id t ++ turnsOfRounds count (round m t)

def turnsOfSettle (t : Timeline σ α β) : List (σ × σ) :=
  turnsOfRounds m id (t.pendingCount + 2) t

def turnsOfPlay (t : Timeline σ α β) : List (Move κ) → List (σ × σ)
  | [] => []
  | x :: moves => turnsOfSettle m id (stir m t x) ++ turnsOfPlay (move m t x) moves

end

/-- The turns of the task that a step begins, in a play that goes on with some moves: the first is
the beginning of the step. -/
def turnsOfStep (m : Machinery σ κ α β) (t : Timeline σ α β) (step : Step κ)
    (moves : List (Move κ)) : List (σ × σ) :=
  let begun := launch m t step
  (t.state, begun.state) ::
    (turnsOfSettle m t.tasks.size begun ++ turnsOfPlay m t.tasks.size (settle m begun) moves)

/-- Something that can be said of a task, of its turns so far and of the timeline, and that every
single step keeps up while everything settles. -/
structure Kept (m : Machinery σ κ α β) (id : TaskId)
    (Q : List (σ × σ) → Timeline σ α β → Task α β → Prop) : Prop where
  deliver : ∀ {turns t task}, Q turns t task → Q turns { t with state := m.deliver t.state } task
  complete : ∀ {turns t task}, Q turns t task → Q turns { t with state := m.complete t.state } task
  other : ∀ {turns t task other}, other ≠ id → Q turns t task → Q turns (pollTask m t other) task
  poll : ∀ {turns t errand}, t.tasks[id]? = some (.pending errand) → Q turns t (.pending errand) →
    Q (turns ++ [(t.state, (pollTask m t id).state)]) (pollTask m t id) (pollErrand m t errand).2

/-- Something that can be said of a task, of its turns so far and of the timeline, and that
everything upholds. -/
structure Upheld (m : Machinery σ κ α β) (id : TaskId)
    (Q : List (σ × σ) → Timeline σ α β → Task α β → Prop) : Prop where
  still : ∀ {turns t u task}, Later m t u → m.now u.state = m.now t.state →
    Q turns t task → Q turns u task
  tick : ∀ {turns t task moment}, Timely m t id → t.tasks[id]? = some task →
    nextMoment m t = some moment → Q turns t task →
    Q turns { t with state := m.advance t.state moment } task
  cancel : ∀ {turns t errand time}, Q turns t (.pending errand) → Q turns t (.ended time .cancelled)
  poll : ∀ {turns t errand}, t.tasks[id]? = some (.pending errand) → Q turns t (.pending errand) →
    Q (turns ++ [(t.state, (pollTask m t id).state)]) (pollTask m t id) (pollErrand m t errand).2

def Holding (Q : List (σ × σ) → Timeline σ α β → Task α β → Prop) (id : TaskId)
    (turns : List (σ × σ)) (t : Timeline σ α β) : Prop :=
  ∃ task, t.tasks[id]? = some task ∧ Q turns t task

namespace Kept

variable {m : Machinery σ κ α β} {id : TaskId}
  {Q : List (σ × σ) → Timeline σ α β → Task α β → Prop} {turns : List (σ × σ)}
  {t : Timeline σ α β}

theorem delivered (hQ : Kept m id Q) (h : Holding Q id turns t) :
    Holding Q id turns { t with state := m.deliver t.state } := by
  obtain ⟨task, ht, hq⟩ := h
  exact ⟨task, ht, hQ.deliver hq⟩

theorem completed (hQ : Kept m id Q) (h : Holding Q id turns t) :
    Holding Q id turns { t with state := m.complete t.state } := by
  obtain ⟨task, ht, hq⟩ := h
  exact ⟨task, ht, hQ.complete hq⟩

theorem turnsOf (hQ : Kept m id Q) (ids : List TaskId) (h : Holding Q id turns t) :
    Holding Q id (turns ++ Timeline.turnsOf m id ids t) (ids.foldl (pollTask m) t) := by
  induction ids generalizing turns t with
  | nil => simpa [Timeline.turnsOf] using h
  | cons other ids ih =>
    obtain ⟨task, ht, hq⟩ := h
    rw [Timeline.turnsOf, List.foldl_cons]
    by_cases hturn : other = id ∧ t.tasks[id]?.any Task.isPending
    · obtain ⟨rfl, hpending⟩ := hturn
      rw [ht] at hpending
      cases task with
      | ended time ending => cases hpending
      | pending errand =>
        have hpolled : Holding Q other (turns ++ [(t.state, (pollTask m t other).state)])
            (pollTask m t other) := ⟨_, (pollTask_pending ht).2, hQ.poll ht hq⟩
        rw [if_pos ⟨rfl, by simp [ht, Task.isPending]⟩]
        simpa using ih hpolled
    · rw [if_neg hturn]
      refine ih ?_
      by_cases he : other = id
      · -- a task that has ended does not go on
        subst he
        have hended : ¬ task.isPending = true := by simpa [ht] using hturn
        rw [pollTask_of_not_pending (fun errand hp => ?_)]
        · exact ⟨task, ht, hq⟩
        · obtain rfl := Option.some.inj (ht.symm.trans hp)
          exact hended rfl
      · exact ⟨task, (pollTask_of_ne he).trans ht, hQ.other he hq⟩

theorem pollAll (hQ : Kept m id Q) (h : Holding Q id turns t) :
    Holding Q id (turns ++ turnsOfAll m id t) (Timeline.pollAll m t) :=
  hQ.turnsOf _ h

theorem turnsOfRounds (hQ : Kept m id Q) (count : Nat) (h : Holding Q id turns t) :
    Holding Q id (turns ++ Timeline.turnsOfRounds m id count t) (rounds m count t) := by
  induction count generalizing turns t with
  | zero =>
    rw [Timeline.turnsOfRounds, List.append_nil]
    exact h
  | succ count ih =>
    have hfirst := hQ.pollAll (hQ.delivered h)
    have hsecond := hQ.pollAll (hQ.completed (hQ.delivered hfirst))
    rw [Timeline.turnsOfRounds, ← List.append_assoc, turnsOfRound, ← List.append_assoc]
    exact ih hsecond

/-- What is kept up holds when everything has settled, for all turns of the task. -/
theorem settle (hQ : Kept m id Q) (h : Holding Q id turns t) :
    Holding Q id (turns ++ turnsOfSettle m id t) (Timeline.settle m t) :=
  hQ.turnsOfRounds _ h

/-- What is kept up, and outlasts the jumps of the clock, holds as often as everything settles. -/
theorem ticks (hQ : Kept m id Q)
    (htick : ∀ {turns t task moment}, t.tasks[id]? = some task → nextMoment m t = some moment →
      Q turns t task → Q turns { t with state := m.advance t.state moment } task)
    (count : Nat) (h : Holding Q id turns t) :
    ∃ u before, Holding Q id before u ∧
      play m (Timeline.settle m t) (List.replicate count .tick) = Timeline.settle m u ∧
      turns ++ (turnsOfSettle m id t ++
        turnsOfPlay m id (Timeline.settle m t) (List.replicate count .tick)) =
        before ++ turnsOfSettle m id u := by
  induction count generalizing turns t with
  | zero => exact ⟨t, turns, h, rfl, by simp [turnsOfPlay]⟩
  | succ count ih =>
    have hstirred : Holding Q id (turns ++ turnsOfSettle m id t)
        (stir m (Timeline.settle m t) .tick) := by
      obtain ⟨task, ht, hq⟩ := hQ.settle h
      unfold stir
      cases hn : nextMoment m (Timeline.settle m t) with
      | none => exact ⟨task, ht, hq⟩
      | some moment => exact ⟨task, ht, htick ht hn hq⟩
    obtain ⟨u, before, hu, hplay, hturns⟩ := ih hstirred
    refine ⟨u, before, hu, ?_, ?_⟩
    · rw [List.replicate_succ, play_cons]
      exact hplay
    · rw [← hturns, List.replicate_succ, turnsOfPlay, List.append_assoc]
      rfl

end Kept

theorem launch_task {m : Machinery σ κ α β} {t : Timeline σ α β} {id : TaskId} {task : Task α β}
    (h : t.tasks[id]? = some task) (step : Step κ) :
    (launch m t step).tasks[id]? = some task ∨
      ∃ errand time, task = .pending errand ∧
        (launch m t step).tasks[id]? = some (.ended time .cancelled) := by
  refine launch_induction (m := m)
    (P := fun u => u.tasks[id]? = some task ∨
      ∃ errand time, task = .pending errand ∧ u.tasks[id]? = some (.ended time .cancelled))
    ?_ ?_ ?_ ?_ (.inl h) step
  · intro u new _ hu
    rcases hu with hu | ⟨errand, time, hp, hu⟩
    · exact .inl ((push_of_lt (Array.getElem?_eq_some_iff.mp hu).1).trans hu)
    · exact .inr ⟨errand, time, hp, (push_of_lt (Array.getElem?_eq_some_iff.mp hu).1).trans hu⟩
  · exact fun u names hu => hu
  · intro u other hu
    rcases hu with hu | ⟨errand, time, hp, hu⟩
    · by_cases hid : other = id
      · subst hid
        cases task with
        | pending errand => exact .inr ⟨errand, _, rfl, cancelTask_pending hu⟩
        | ended time ending => exact .inl (ended_cancelTask hu)
      · exact .inl ((cancelTask_of_ne hid).trans hu)
    · exact .inr ⟨errand, time, hp, ended_cancelTask hu⟩
  · intro u command hu
    rcases hu with hu | ⟨errand, time, hp, hu⟩
    · exact .inl ((push_of_lt (t := { u with state := _ })
        (Array.getElem?_eq_some_iff.mp hu).1).trans hu)
    · exact .inr ⟨errand, time, hp, (push_of_lt (t := { u with state := _ })
        (Array.getElem?_eq_some_iff.mp hu).1).trans hu⟩

namespace Upheld

variable {m : Machinery σ κ α β} {id : TaskId}
  {Q : List (σ × σ) → Timeline σ α β → Task α β → Prop} {turns : List (σ × σ)}
  {t u : Timeline σ α β}

theorem holding_still (hQ : Upheld m id Q) (hlater : Later m t u)
    (hnow : m.now u.state = m.now t.state) (htask : u.tasks[id]? = t.tasks[id]?)
    (h : Holding Q id turns t) : Holding Q id turns u := by
  obtain ⟨task, ht, hq⟩ := h
  exact ⟨task, htask.trans ht, hQ.still hlater hnow hq⟩

theorem kept (hQ : Upheld m id Q) (hm : m.Punctual) : Kept m id Q where
  deliver {_ t _} hq := hQ.still (.deliver .refl) (hm.now_deliver t.state) hq
  complete {_ t _} hq := hQ.still (.complete .refl) (hm.now_complete t.state) hq
  other {_ t _ other} _ hq := hQ.still (.poll other .refl) (hm.now_pollTask t other) hq
  poll := hQ.poll

theorem settle (hQ : Upheld m id Q) (hm : m.Punctual) (h : Holding Q id turns t) :
    Holding Q id (turns ++ turnsOfSettle m id t) (Timeline.settle m t) :=
  (hQ.kept hm).settle h

theorem launch (hQ : Upheld m id Q) (hm : m.Punctual) (step : Step κ) (h : Holding Q id turns t) :
    Holding Q id turns (Timeline.launch m t step) := by
  have hlater : Later m t (Timeline.launch m t step) := .launch step .refl
  have hnow := hm.now_launch t step
  obtain ⟨task, ht, hq⟩ := h
  rcases launch_task (m := m) ht step with hsame | ⟨errand, time, rfl, hcancelled⟩
  · exact hQ.holding_still hlater hnow (hsame.trans ht.symm) ⟨task, ht, hq⟩
  · exact ⟨_, hcancelled, hQ.still hlater hnow (hQ.cancel hq)⟩

theorem stir (hQ : Upheld m id Q) (hm : m.Punctual) (htimely : Timely m t id) (x : Move κ)
    (h : Holding Q id turns t) : Holding Q id turns (Timeline.stir m t x) := by
  cases x with
  | begin step => exact hQ.launch hm step h
  | tick =>
    unfold Timeline.stir
    cases hn : nextMoment m t with
    | none => exact h
    | some moment =>
      obtain ⟨task, ht, hq⟩ := h
      exact ⟨task, ht, hQ.tick htimely ht hn hq⟩

theorem play (hQ : Upheld m id Q) (hm : m.Punctual) (htimely : Timely m t id)
    (moves : List (Move κ)) (h : Holding Q id turns t) :
    Holding Q id (turns ++ turnsOfPlay m id t moves) (Timeline.play m t moves) := by
  induction moves generalizing turns t with
  | nil => simpa [turnsOfPlay, Timeline.play] using h
  | cons x moves ih =>
    have hmoved := hQ.settle hm (hQ.stir hm htimely x h)
    rw [turnsOfPlay, ← List.append_assoc]
    exact ih (hm.timely_settle _ id) hmoved

/-- What is upheld and holds when a step has begun holds after every play that goes on. -/
theorem step {step : Step κ} (hQ : Upheld m t.tasks.size Q) (hm : m.Punctual)
    (h : Holding Q t.tasks.size [(t.state, (Timeline.launch m t step).state)]
      (Timeline.launch m t step)) (moves : List (Move κ)) :
    Holding Q t.tasks.size (turnsOfStep m t step moves)
      (Timeline.play m (move m t (.begin step)) moves) := by
  have hbegun := hQ.settle hm h
  have hplayed := hQ.play hm (hm.timely_settle _ _) moves hbegun
  rw [List.append_assoc] at hplayed
  exact hplayed

end Upheld

section

variable (m : Machinery σ κ α β) (id : TaskId)

theorem turnsOfPlay_append (t : Timeline σ α β) (xs ys : List (Move κ)) :
    turnsOfPlay m id t (xs ++ ys) = turnsOfPlay m id t xs ++ turnsOfPlay m id (play m t xs) ys := by
  induction xs generalizing t with
  | nil => rfl
  | cons x xs ih =>
    rw [List.cons_append, turnsOfPlay, turnsOfPlay, ih, List.append_assoc]
    rfl

theorem turnsOfStep_append (t : Timeline σ α β) (step : Step κ) (xs ys : List (Move κ)) :
    turnsOfStep m t step (xs ++ ys) = turnsOfStep m t step xs ++
      turnsOfPlay m t.tasks.size (play m (move m t (.begin step)) xs) ys := by
  have hmoved : settle m (launch m t step) = move m t (.begin step) := rfl
  simp only [turnsOfStep, turnsOfPlay_append, hmoved, List.cons_append, List.append_assoc]

end

section

variable {m : Machinery σ κ α β} {id : TaskId} {t : Timeline σ α β} {turn : σ × σ}

theorem now_of_mem_turnsOf (hm : m.Punctual) {ids : List TaskId} (h : turn ∈ turnsOf m id ids t) :
    m.now turn.1 = m.now t.state := by
  induction ids generalizing t with
  | nil => cases h
  | cons other ids ih =>
    have hnow := hm.now_pollTask t other
    rw [turnsOf] at h
    split at h
    · rcases List.mem_cons.mp h with rfl | h
      · rfl
      · exact (ih h).trans hnow
    · exact (ih h).trans hnow

theorem now_of_mem_turnsOfRounds (hm : m.Punctual) {count : Nat}
    (h : turn ∈ turnsOfRounds m id count t) : m.now turn.1 = m.now t.state := by
  induction count generalizing t with
  | zero => cases h
  | succ count ih =>
    have hall : ∀ u : Timeline σ α β, m.now (pollAll m u).state = m.now u.state := fun u =>
      pollAll_induction (P := fun v => m.now v.state = m.now u.state)
        (fun v other hv => (hm.now_pollTask v other).trans hv) rfl
    have hdelivered : m.now (m.deliver t.state) = m.now t.state := hm.now_deliver t.state
    have hpolled := (hall { t with state := m.deliver t.state }).trans hdelivered
    have hcompleted := (hm.now_complete _).trans ((hm.now_deliver _).trans hpolled)
    rw [turnsOfRounds, turnsOfRound] at h
    rcases List.mem_append.mp h with h | h
    · rcases List.mem_append.mp h with h | h
      · exact (now_of_mem_turnsOf hm h).trans hdelivered
      · exact (now_of_mem_turnsOf hm h).trans hcompleted
    · exact (ih h).trans ((hall _).trans hcompleted)

/-- While everything settles, each turn is taken at the moment at which that happens. -/
theorem now_of_mem_turnsOfSettle (hm : m.Punctual) (h : turn ∈ turnsOfSettle m id t) :
    m.now turn.1 = m.now t.state :=
  now_of_mem_turnsOfRounds hm h

end

theorem upheld_ended (m : Machinery σ κ α β) (id : TaskId) (sofar : List (σ × σ)) :
    Upheld m id fun turns _ task => turns = sofar ∧ task.isPending = false where
  still _ _ h := h
  tick _ _ _ h := h
  cancel h := ⟨h.1, rfl⟩
  poll _ h := by cases h.2

theorem turnsOfStep_append_of_ended {m : Machinery σ κ α β} (hm : m.Punctual) {t : Timeline σ α β}
    {step : Step κ} {task : Task α β} {moves : List (Move κ)}
    (h : (play m (move m t (.begin step)) moves).tasks[t.tasks.size]? = some task)
    (hended : task.isPending = false) (more : List (Move κ)) :
    turnsOfStep m t step (moves ++ more) = turnsOfStep m t step moves := by
  have htimely : Timely m (play m (move m t (.begin step)) moves) t.tasks.size :=
    hm.timely_play (fun id => hm.timely_settle _ id) moves _
  obtain ⟨-, -, hturns, -⟩ :=
    (upheld_ended m t.tasks.size []).play hm htimely more ⟨task, h, rfl, hended⟩
  rw [turnsOfStep_append, ← List.nil_append (turnsOfPlay _ _ _ _), hturns, List.append_nil]

theorem turnsOfStep_of_ended {m : Machinery σ κ α β} (hm : m.Punctual) {t : Timeline σ α β}
    {step : Step κ} {task : Task α β} (h : (launch m t step).tasks[t.tasks.size]? = some task)
    (hended : task.isPending = false) (moves : List (Move κ)) :
    turnsOfStep m t step moves = [(t.state, (launch m t step).state)] := by
  obtain ⟨-, -, hturns, -⟩ := (upheld_ended m t.tasks.size _).step hm ⟨task, h, rfl, hended⟩ moves
  exact hturns

end Overseer.Timeline
