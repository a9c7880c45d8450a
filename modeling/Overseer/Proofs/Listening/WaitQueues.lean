import Overseer.Listening
import Overseer.Proofs.OutputLog.Subscription
import Overseer.Proofs.Timeline.Moves

/-!
# Listeners and their queues

Any number of waits on one log keep out of each other's way: every wait has a queue of its own
(`Tidy`, `Attended`), so what the others do leaves its backlog alone. Once everything has settled, a
wait has come to what the log decides (`Attended.settle`).
-/

namespace Overseer.Listening

open OutputLog Timeline

abbrev Listeners := Timeline Listening LineWait Result

@[simp] theorem now_take (s : Listening) (feed : Feed) : (s.take feed).now = s.now := by
  cases feed <;> rfl

@[simp] theorem coming_take (s : Listening) (feed : Feed) : (s.take feed).coming = s.coming := by
  cases feed <;> rfl

theorem foldl_take_now (due : List (Instant × Feed)) (s : Listening) :
    (due.foldl (fun s entry => s.take entry.2) s).now = s.now := by
  induction due generalizing s with
  | nil => rfl
  | cons entry due ih => rw [List.foldl_cons, ih, now_take]

theorem foldl_take_coming (due : List (Instant × Feed)) (s : Listening) :
    (due.foldl (fun s entry => s.take entry.2) s).coming = s.coming := by
  induction due generalizing s with
  | nil => rfl
  | cons entry due ih => rw [List.foldl_cons, ih, coming_take]

theorem now_advance (s : Listening) (moment : Instant) : (s.advance moment).now = moment :=
  foldl_take_now _ _

theorem coming_advance (s : Listening) (moment : Instant) :
    (s.advance moment).coming = s.coming.dropWhile (·.1 ≤ moment) := foldl_take_coming _ _

theorem sorted_advance {s : Listening} (h : s.coming.Pairwise fun a b => a.1 ≤ b.1)
    (moment : Instant) : (s.advance moment).coming.Pairwise fun a b => a.1 ≤ b.1 := by
  rw [coming_advance]
  exact h.sublist (List.dropWhile_sublist _)

theorem ahead_advance {s : Listening} (h : s.coming.Pairwise fun a b => a.1 ≤ b.1)
    (moment : Instant) : ∀ entry ∈ (s.advance moment).coming, (s.advance moment).now < entry.1 := by
  intro entry he
  rw [coming_advance] at he
  rw [now_advance]
  exact Instant.lt_of_mem_dropWhile h he

theorem use_take {p : QueueId → Prop} {log : OutputLog} {s : Listening} (h : Use p log s.log)
    (feed : Feed) : Use p log (s.take feed).log := by
  cases feed with
  | append line =>
    simp only [take]
    cases ha : s.log.append? line with
    | some after => exact h.append ha
    | none => exact h
  | close => exact h.close

theorem use_advance (p : QueueId → Prop) (s : Listening) (moment : Instant) :
    Use p s.log (s.advance moment).log := by
  have hall : ∀ (due : List (Instant × Feed)) (u : Listening), Use p s.log u.log →
      Use p s.log (due.foldl (fun s entry => s.take entry.2) u).log := by
    intro due
    induction due with
    | nil => exact fun u hu => hu
    | cons entry due ih => exact fun u hu => ih _ (use_take hu entry.2)
  exact hall _ _ .refl

theorem use_start {p : QueueId → Prop} {s : Listening} (hnew : p s.log.queues.size)
    (command : Command) : Use p s.log (start command s).1.log := by
  cases command with
  | wait pattern limit =>
    simp only [start]
    cases pattern.compile with
    | error failure => exact .refl
    | ok compiled =>
      exact LineWait.use_poll Use.refl.subscribe ((LineWait.queue_start _ _ _ _).symm ▸ hnew) _
  | append line =>
    simp only [start]
    cases ha : s.log.append? line with
    | some after => exact Use.refl.append ha
    | none => exact .refl
  | close => exact Use.refl.close
  | state => exact .refl

theorem now_start (command : Command) (s : Listening) : (start command s).1.now = s.now := by
  cases command with
  | wait pattern limit =>
    simp only [start]
    cases pattern.compile <;> rfl
  | append line =>
    simp only [start]
    cases s.log.append? line <;> rfl
  | close => rfl
  | state => rfl

theorem coming_start (command : Command) (s : Listening) :
    (start command s).1.coming = s.coming := by
  cases command with
  | wait pattern limit =>
    simp only [start]
    cases pattern.compile <;> rfl
  | append line =>
    simp only [start]
    cases s.log.append? line <;> rfl
  | close => rfl
  | state => rfl

theorem pending_poll {w rest : LineWait} {s : Listening} (h : (poll w s).2 = .pending rest) :
    rest = w ∧ Instant.reached s.now w.deadline = false := by
  change Progress.map id _ (w.poll s.now s.log).2.2 = .pending rest at h
  cases hp : (w.poll s.now s.log).2.2 with
  | done result =>
    rw [hp] at h
    cases h
  | pending after =>
    rw [hp] at h
    obtain rfl := Progress.pending.inj h
    obtain ⟨rfl, hreached, -⟩ := LineWait.pending_poll hp
    exact ⟨rfl, hreached⟩

theorem progress_poll {w : LineWait} {s : Listening} {heard : Nat}
    (h : Backlog s.log w.queue heard) :
    (poll w s).2 = match w.decision s.now heard s.log with
      | some result => .done (result.map .found)
      | none => .pending w := by
  have hp : (poll w s).2 = (w.poll s.now s.log).2.2.map id (·.map .found) := rfl
  rw [hp, LineWait.poll_eq_decision h]
  cases w.decision s.now heard s.log <;> rfl

theorem pending_start {command : Command} {s : Listening} {w : LineWait}
    (h : (start command s).2 = .pending w) :
    w.queue = s.log.queues.size ∧ w.queue < (start command s).1.log.queues.size := by
  cases command with
  | wait pattern limit =>
    revert h
    simp only [start]
    cases pattern.compile with
    | error failure =>
      intro h
      cases h
    | ok compiled =>
      intro h
      obtain ⟨rfl, -⟩ := pending_poll h
      have hq := LineWait.queue_start compiled (limit.getD s.usualLimit) s.now s.log
      have hgrown := (LineWait.use_poll (p := fun _ => True)
        (w := (LineWait.start compiled (limit.getD s.usualLimit) s.now s.log).2)
        (.refl : Use _ s.log.subscribe.1 _) trivial s.now).size_le
      rw [size_subscribe] at hgrown
      exact ⟨hq, hq ▸ hgrown⟩
  | append line =>
    revert h
    simp only [start]
    cases s.log.append? line with
    | some after =>
      intro h
      cases h
    | none =>
      intro h
      cases h
  | close => cases h
  | state => cases h

theorem machinery_punctual : machinery.Punctual where
  now_advance := now_advance
  now_deliver _ := rfl
  now_complete _ := rfl
  now_start _ := now_start
  now_poll _ _ := rfl
  now_cancel _ _ := rfl
  wake_poll w s rest h moment hwake := by
    obtain ⟨rfl, hreached⟩ := pending_poll h
    exact Instant.reached_eq_false_iff.mp hreached moment hwake

/-- Every subscription and every wait has a queue, and what is to come is sorted and still to
come. -/
structure Tidy (t : Listeners) : Prop where
  bounded : t.state.log.Bounded
  waits : ∀ (id : TaskId) (w : LineWait), t.tasks[id]? = some (.pending (.act w)) →
    w.queue < t.state.log.queues.size
  sorted : t.state.coming.Pairwise fun a b => a.1 ≤ b.1
  ahead : ∀ entry ∈ t.state.coming, t.state.now < entry.1

namespace Tidy

variable {t u : Listeners}

theorem cancelTask (h : Tidy t) (id : TaskId) : Tidy (cancelTask machinery t id).1 := by
  have hwaits : ∀ (other : TaskId) (v : LineWait),
      (Timeline.cancelTask machinery t id).1.tasks[other]? = some (.pending (.act v)) →
        v.queue < t.state.log.queues.size :=
    fun other v hv => h.waits other v (act_cancelTask hv)
  rcases cancelTask_state (m := machinery) t id with ⟨w, -, hs⟩ | hs
  · refine ⟨?_, ?_, ?_, ?_⟩ <;> rw [hs]
    · exact h.bounded.unsubscribe w.queue
    · exact hwaits
    · exact h.sorted
    · exact h.ahead
  · refine ⟨?_, ?_, ?_, ?_⟩ <;> rw [hs]
    · exact h.bounded
    · exact hwaits
    · exact h.sorted
    · exact h.ahead

theorem launch (h : Tidy t) (step : Step Command) : Tidy (launch machinery t step) := by
  refine launch_induction (P := Tidy) ?_ ?_ (fun _ id h => h.cancelTask id) ?_ h step
  · intro t task hidle h
    exact ⟨h.bounded, fun id w hw => h.waits id w (act_push_idle hidle hw), h.sorted, h.ahead⟩
  · exact fun t names h => ⟨h.bounded, h.waits, h.sorted, h.ahead⟩
  · intro t command h
    have huse := use_start (p := fun _ => True) (s := t.state) trivial command
    refine ⟨huse.bounded h.bounded, ?_, ?_, ?_⟩
    · intro id w hw
      rcases act_push hw with hw | ⟨-, hw⟩
      · exact Nat.lt_of_lt_of_le (h.waits id w hw) huse.size_le
      · exact (pending_start (ofProgress_eq_act hw)).2
    · exact (coming_start command t.state).symm ▸ h.sorted
    · intro entry he
      refine (now_start command t.state).symm ▸ h.ahead entry ?_
      exact (coming_start command t.state) ▸ he

theorem advance (h : Tidy t) (moment : Instant) :
    Tidy { t with state := machinery.advance t.state moment } := by
  have huse := use_advance (fun _ => True) t.state moment
  refine ⟨huse.bounded h.bounded, ?_, sorted_advance h.sorted moment, ahead_advance h.sorted moment⟩
  exact fun id w hw => Nat.lt_of_lt_of_le (h.waits id w hw) huse.size_le

theorem pollTask (h : Tidy t) (id : TaskId) : Tidy (pollTask machinery t id) := by
  have hwaits : ∀ (other : TaskId) (v : LineWait),
      (Timeline.pollTask machinery t id).tasks[other]? = some (.pending (.act v)) →
        v.queue < t.state.log.queues.size := by
    intro other v hv
    rcases act_pollTask hv with ⟨-, hv⟩ | ⟨w, hw, hp⟩
    · exact h.waits other v hv
    · obtain ⟨rfl, -⟩ := pending_poll hp
      exact h.waits other v hw
  rcases pollTask_cases (m := machinery) t id with ⟨w, hw, hp⟩ | ⟨-, hs, -⟩
  · have huse := LineWait.use_poll (p := fun _ => True) (w := w)
      (.refl : Use _ t.state.log t.state.log) trivial t.state.now
    refine ⟨?_, ?_, ?_, ?_⟩
    · rw [hp]
      exact huse.bounded h.bounded
    · intro other v hv
      have hlt := hwaits other v hv
      rw [hp]
      exact Nat.lt_of_lt_of_le hlt huse.size_le
    · rw [hp]
      exact h.sorted
    · rw [hp]
      exact h.ahead
  · refine ⟨?_, ?_, ?_, ?_⟩ <;> rw [hs]
    · exact h.bounded
    · exact hwaits
    · exact h.sorted
    · exact h.ahead

theorem later (h : Tidy t) (hlater : Later machinery t u) : Tidy u :=
  Later.induction (P := Tidy) (fun _ step ht => ht.launch step)
    (fun _ moment ht => ht.advance moment) (fun _ ht => ht) (fun _ ht => ht)
    (fun _ id ht => ht.pollTask id) h hlater

theorem ofFeed (usualLimit : Option Number.Seconds) (feed : List (Instant × Feed)) :
    Tidy { state := Listening.ofFeed usualLimit feed } := by
  have hsorted : (feed.mergeSort fun a b => a.1 ≤ b.1).Pairwise fun a b => a.1 ≤ b.1 := by
    have h : (feed.mergeSort fun a b => a.1 ≤ b.1).Pairwise fun a b => decide (a.1 ≤ b.1) = true :=
      List.pairwise_mergeSort (fun a b c => by simpa using Nat.le_trans)
        (fun a b => by simpa using Nat.le_total a.1 b.1) feed
    simpa using h
  have huse := use_advance (fun _ => True) { usualLimit := usualLimit.getD LineWait.usualLimit
                                             coming := feed.mergeSort fun a b => a.1 ≤ b.1 } 0
  refine ⟨huse.bounded ?_, ?_, sorted_advance hsorted 0, ahead_advance hsorted 0⟩
  · intro q hq
    cases hq
  · intro id w hw
    cases hw

end Tidy

/-- A wait is under way that has heard so many lines, and no other one has its queue. -/
structure Attended (w : LineWait) (id : TaskId) (heard : Nat) (t : Listeners) : Prop where
  task : t.tasks[id]? = some (.pending (.act w))
  backlog : Backlog t.state.log w.queue heard
  apart : ∀ (other : TaskId) (v : LineWait), other ≠ id →
    t.tasks[other]? = some (.pending (.act v)) → v.queue ≠ w.queue

namespace Attended

variable {w : LineWait} {id : TaskId} {heard : Nat} {t : Listeners}

theorem cancelTask (h : Attended w id heard t) {victim : TaskId} (hne : victim ≠ id) :
    Attended w id heard (cancelTask machinery t victim).1 := by
  refine ⟨(cancelTask_of_ne hne).trans h.task, ?_, ?_⟩
  · rcases cancelTask_state (m := machinery) t victim with ⟨v, hv, hs⟩ | hs
    · rw [hs]
      exact h.backlog.unsubscribe (h.apart victim v hne hv)
    · rw [hs]
      exact h.backlog
  · exact fun other v hother hv => h.apart other v hother (act_cancelTask hv)

theorem launch_act (h : Attended w id heard t) (command : Command) :
    Attended w id heard (launch machinery t (.act command)) := by
  have hnew : t.state.log.queues.size ≠ w.queue := Nat.ne_of_gt h.backlog.bound
  refine ⟨?_, (use_start hnew command).backlog h.backlog, ?_⟩
  · exact (push_of_lt (t := { t with state := _ })
      (Array.getElem?_eq_some_iff.mp h.task).1).trans h.task
  · intro other v hne hv
    rcases act_push hv with hv | ⟨-, hv⟩
    · exact h.apart other v hne hv
    · rw [(pending_start (ofProgress_eq_act hv)).1]
      exact hnew

/-- Nothing that begins keeps a line from a wait, but it may cancel the wait. -/
theorem launch (h : Attended w id heard t) (step : Step Command) :
    Cancelled (launch machinery t step) id ∨ Attended w id heard (launch machinery t step) := by
  refine launch_induction (P := fun t => Cancelled t id ∨ Attended w id heard t) ?_ ?_ ?_ ?_
    (.inr h) step
  · rintro t task hidle (⟨time, h⟩ | h)
    · exact .inl ⟨time, (push_of_lt (Array.getElem?_eq_some_iff.mp h).1).trans h⟩
    · refine .inr ⟨?_, h.backlog, ?_⟩
      · exact (push_of_lt (Array.getElem?_eq_some_iff.mp h.task).1).trans h.task
      · exact fun other v hne hv => h.apart other v hne (act_push_idle hidle hv)
  · rintro t names (⟨time, h⟩ | h)
    · exact .inl ⟨time, h⟩
    · exact .inr ⟨h.task, h.backlog, h.apart⟩
  · rintro t victim (⟨time, h⟩ | h)
    · exact .inl ⟨time, ended_cancelTask h⟩
    · by_cases hid : victim = id
      · subst hid
        exact .inl ⟨_, cancelTask_pending h.task⟩
      · exact .inr (h.cancelTask hid)
  · rintro t command (⟨time, h⟩ | h)
    · refine .inl ⟨time, ?_⟩
      exact (push_of_lt (t := { t with state := _ }) (Array.getElem?_eq_some_iff.mp h).1).trans h
    · exact .inr (h.launch_act command)

theorem advance (h : Attended w id heard t) (moment : Instant) :
    Attended w id heard { t with state := machinery.advance t.state moment } :=
  ⟨h.task, (use_advance _ t.state moment).backlog h.backlog, h.apart⟩

theorem apart_pollTask (h : Attended w id heard t) (polled other : TaskId) (v : LineWait)
    (hne : other ≠ id)
    (hv : (pollTask machinery t polled).tasks[other]? = some (.pending (.act v))) :
    v.queue ≠ w.queue := by
  rcases act_pollTask hv with ⟨-, hv⟩ | ⟨before, hv, hp⟩
  · exact h.apart other v hne hv
  · obtain ⟨rfl, -⟩ := pending_poll hp
    exact h.apart other v hne hv

theorem pollTask_of_ne (h : Attended w id heard t) {polled : TaskId} (hne : polled ≠ id) :
    Attended w id heard (pollTask machinery t polled) := by
  refine ⟨(Timeline.pollTask_of_ne hne).trans h.task, ?_, h.apart_pollTask polled⟩
  rcases pollTask_cases (m := machinery) t polled with ⟨v, hv, hp⟩ | ⟨-, hs, -⟩
  · rw [hp]
    exact (LineWait.use_poll (p := (· ≠ w.queue)) .refl (h.apart polled v hne hv)
      t.state.now).backlog h.backlog
  · rw [hs]
    exact h.backlog

/-- A wait that goes on comes to what the log decides, and else has heard all there is. -/
theorem pollTask_self (h : Attended w id heard t) :
    match w.decision t.state.now heard t.state.log with
    | some result => (pollTask machinery t id).tasks[id]? =
        some (.ended t.state.now (.result (result.map .found)))
    | none => Attended w id t.state.log.lines.size (pollTask machinery t id) := by
  obtain ⟨hstate, htask⟩ := pollTask_pending (m := machinery) h.task
  have hp := progress_poll h.backlog
  have htask' : (pollTask machinery t id).tasks[id]? =
      some (.ofProgress t.state.now (poll w t.state).2) := htask
  cases hd : w.decision t.state.now heard t.state.log with
  | some result =>
    rw [hd] at hp
    rw [htask', hp]
    rfl
  | none =>
    rw [hd] at hp
    refine ⟨?_, ?_, h.apart_pollTask id⟩
    · rw [htask', hp]
      rfl
    · rw [hstate]
      exact LineWait.backlog_poll_self h.backlog hd

end Attended

structure SameRecord (before after : Listening) : Prop where
  now : after.now = before.now
  lines : after.log.lines = before.log.lines
  closed : after.log.closed = before.log.closed

def Decided (w : LineWait) (id : TaskId) (heard : Nat) (s : Listening) (t : Listeners) : Prop :=
  match w.decision s.now heard s.log with
  | some result => t.tasks[id]? = some (.ended s.now (.result (result.map .found)))
  | none => Attended w id s.log.lines.size t

section

variable {w : LineWait} {id polled : TaskId} {heard : Nat} {s : Listening} {t : Listeners}

theorem SameRecord.pollTask (h : SameRecord s t.state) (polled : TaskId) :
    SameRecord s (pollTask machinery t polled).state := by
  rcases pollTask_cases (m := machinery) t polled with ⟨w, -, hp⟩ | ⟨-, hs, -⟩
  · rw [hp]
    exact ⟨h.now, (LineWait.lines_poll w _ _).trans h.lines,
      (LineWait.closed_poll w _ _).trans h.closed⟩
  · rwa [hs]

theorem SameRecord.settle (h : SameRecord s t.state) : SameRecord s (settle machinery t).state :=
  settle_induction (P := fun u => SameRecord s u.state) (fun _ hu => hu) (fun _ hu => hu)
    (fun _ polled hu => hu.pollTask polled) h

theorem Decided.pollTask_of_ne (h : Decided w id heard s t) (hne : polled ≠ id) :
    Decided w id heard s (pollTask machinery t polled) := by
  unfold Decided at h ⊢
  cases hd : w.decision s.now heard s.log with
  | some result =>
    rw [hd] at h
    exact (Timeline.pollTask_of_ne hne).trans h
  | none =>
    rw [hd] at h
    exact h.pollTask_of_ne hne

theorem Attended.decided_pollTask (h : Attended w id heard t) (hs : SameRecord s t.state) :
    Decided w id heard s (pollTask machinery t id) := by
  have hp := h.pollTask_self
  rw [hs.now, LineWait.decision_congr hs.lines hs.closed, hs.lines] at hp
  exact hp

theorem Decided.pollTask_self (h : Decided w id heard s t) (hs : SameRecord s t.state) :
    Decided w id heard s (pollTask machinery t id) := by
  unfold Decided at h ⊢
  cases hd : w.decision s.now heard s.log with
  | some result =>
    rw [hd] at h
    exact ended_pollTask h
  | none =>
    rw [hd] at h
    have hp := h.decided_pollTask hs
    rwa [Decided, LineWait.decision_size hd] at hp

/-- Once everything has settled a wait has come to what the log decides. -/
theorem Attended.settle (h : Attended w id heard t) :
    Decided w id heard t.state (settle machinery t) := by
  have hid : id < t.tasks.size := (Array.getElem?_eq_some_iff.mp h.task).1
  have hown : ∀ u, SameRecord t.state u.state →
      Attended w id heard u ∨ Decided w id heard t.state u →
        Decided w id heard t.state (Timeline.pollTask machinery u id) := by
    rintro u hs (hu | hu)
    · exact hu.decided_pollTask hs
    · exact hu.pollTask_self hs
  -- until the wait itself goes on it is only attended
  refine settle_each
    (P := fun u => SameRecord t.state u.state ∧
      (Attended w id heard u ∨ Decided w id heard t.state u))
    (Q := fun u other => other = id → Decided w id heard t.state u)
    (fun u hu => hu) (fun u hu => hu) ?_ ?_ ?_ ⟨⟨rfl, rfl, rfl⟩, .inl h⟩ id hid rfl
  · rintro u polled ⟨hs, hu⟩
    refine ⟨hs.pollTask polled, ?_⟩
    by_cases hne : polled = id
    · subst hne
      exact .inr (hown u hs hu)
    · exact hu.imp (·.pollTask_of_ne hne) (·.pollTask_of_ne hne)
  · rintro u polled ⟨hs, hu⟩ rfl
    exact hown u hs hu
  · rintro u polled other - hne hu rfl
    exact (hu rfl).pollTask_of_ne hne

end

end Overseer.Listening
