import Overseer.Proofs.Listening.Subscribers

/-!
# Runs of a log

In a run of a log calls are made and cancelled at certain times, and in between the clock moves on,
as far as the next moment at which anything can happen or less far (`Steady`). What is done in a run
and when is a list (`deeds`), from which one call and its cancellation can be left out (`without`).
Calls on two logs that have the same record fare alike when the same is done with both
(`Poised.settle`).
-/

namespace Overseer.Listening

open Number OutputLog Timeline

inductive Deed where
  | call (command : Command)
  | cancel (call : TaskId)
  deriving DecidableEq, Repr

inductive Event where
  | deed (deed : Deed)
  | pass (moment : Instant)
  deriving DecidableEq, Repr

def strike (t : Listeners) : Event → Listeners
  | .deed (.call command) => launch machinery t (.act command)
  | .deed (.cancel call) => (cancelTask machinery t call).1
  | .pass moment => { t with state := machinery.advance t.state moment }

def happen (t : Listeners) (e : Event) : Listeners := settle machinery (strike t e)

def after (t : Listeners) (es : List Event) : Listeners := es.foldl happen t

/-- The clock does not go back, and it jumps over no moment at which anything can happen. -/
def Steady (t : Listeners) : List Event → Prop
  | [] => True
  | .deed deed :: es => Steady (happen t (.deed deed)) es
  | .pass moment :: es =>
    (t.state.now ≤ moment ∧ ∀ next ∈ nextMoment machinery t, moment ≤ next) ∧
      Steady (happen t (.pass moment)) es

instance decidableSteady : (t : Listeners) → (es : List Event) → Decidable (Steady t es)
  | _, [] => .isTrue trivial
  | t, .deed deed :: es => decidableSteady (happen t (.deed deed)) es
  | t, .pass moment :: es =>
    have := decidableSteady (happen t (.pass moment)) es
    inferInstanceAs (Decidable (_ ∧ _))

def deeds (t : Listeners) : List Event → List (Instant × Deed)
  | [] => []
  | .deed deed :: es => (t.state.now, deed) :: deeds (happen t (.deed deed)) es
  | .pass moment :: es => deeds (happen t (.pass moment)) es

def calls (ds : List (Instant × Deed)) : List Command :=
  ds.filterMap fun d => match d.2 with
    | .call command => some command
    | .cancel _ => none

def record (t : Listeners) (c : Course) : List Event → Course
  | [] => c
  | e :: es => record (happen t e) (c.observe t.state (happen t e).state) es

def Course.opening (s : Listening) : Course where
  lines := s.log.lines.toList.map (s.now, ·)
  closing := if s.log.closed then some s.now else none

/-- The number that a call has, or a number of calls, when one of them is left out. -/
def renumber (gone call : Nat) : Nat := if gone < call then call - 1 else call

/-- What is done when one call is left out, with its cancellation; so many have been made before. -/
def without (gone : Nat) : (made : Nat) → List (Instant × Deed) → List (Instant × Deed)
  | _, [] => []
  | made, (time, .call command) :: ds =>
    if made = gone then without gone (made + 1) ds
    else (time, .call command) :: without gone (made + 1) ds
  | made, (time, .cancel call) :: ds =>
    if call = gone then without gone made ds
    else (time, .cancel (renumber gone call)) :: without gone made ds

def outcome? (t : Listeners) (call : TaskId) : Option (Outcome Result) :=
  match t.tasks[call]? with
  | some (.ended time ending) => some ⟨time, ending⟩
  | _ => none

section

variable {t : Listeners}

theorem tidy_strike (h : Tidy t) (e : Event) : Tidy (strike t e) := by
  cases e with
  | deed deed =>
    cases deed with
    | call command => exact h.launch (.act command)
    | cancel call => exact h.cancelTask call
  | pass moment => exact h.advance moment

theorem Tidy.settle (h : Tidy t) : Tidy (settle machinery t) :=
  settle_induction (P := Tidy) (fun _ h => h) (fun _ h => h) (fun _ id h => h.pollTask id) h

theorem Subscribed.happen (h : Subscribed t) (e : Event) : Subscribed (happen t e) := by
  refine Subscribed.settle ?_
  cases e with
  | deed deed =>
    cases deed with
    | call command => exact h.launch_act command
    | cancel call => exact h.cancelTask call
  | pass moment => exact h.advance moment

theorem Subscribed.after (h : Subscribed t) (es : List Event) : Subscribed (after t es) := by
  induction es generalizing t with
  | nil => exact h
  | cons e es ih => exact ih (h.happen e)

structure SameFeed (before after : Listening) : Prop where
  coming : after.coming = before.coming
  usualLimit : after.usualLimit = before.usualLimit

theorem SameFeed.settle (t : Listeners) : SameFeed t.state (settle machinery t).state := by
  refine settle_induction (m := machinery) (P := fun u => SameFeed t.state u.state)
    (fun _ hu => hu) (fun _ hu => hu) (fun u polled hu => ?_) ⟨rfl, rfl⟩
  rcases pollTask_cases (m := machinery) u polled with ⟨w, -, hp⟩ | ⟨-, hs, -⟩
  · rw [hp]
    exact ⟨hu.coming, hu.usualLimit⟩
  · rwa [hs]

theorem size_settle (t : Listeners) : (settle machinery t).tasks.size = t.tasks.size :=
  settle_induction (m := machinery) (P := fun u => u.tasks.size = t.tasks.size)
    (fun _ hu => hu) (fun _ hu => hu) (fun u id hu => (size_pollTask u id).trans hu) rfl

theorem size_cancelTask (t : Listeners) (id : TaskId) :
    (cancelTask machinery t id).1.tasks.size = t.tasks.size := by
  unfold cancelTask
  split <;> simp

theorem size_call (t : Listeners) (command : Command) :
    (happen t (.deed (.call command))).tasks.size = t.tasks.size + 1 :=
  (size_settle _).trans (Array.size_push _)

theorem size_cancel (t : Listeners) (call : TaskId) :
    (happen t (.deed (.cancel call))).tasks.size = t.tasks.size :=
  (size_settle _).trans (size_cancelTask t call)

theorem now_cancelTask (t : Listeners) (id : TaskId) :
    (cancelTask machinery t id).1.state.now = t.state.now := by
  rcases cancelTask_state (m := machinery) t id with ⟨w, -, hs⟩ | hs <;> rw [hs]
  rfl

theorem sameRecord_happen (t : Listeners) (e : Event) :
    SameRecord (strike t e).state (happen t e).state := SameRecord.settle ⟨rfl, rfl, rfl⟩

theorem now_deed (t : Listeners) (deed : Deed) :
    (happen t (.deed deed)).state.now = t.state.now := by
  rw [(sameRecord_happen t _).now]
  cases deed with
  | call command => exact now_start command t.state
  | cancel call => exact now_cancelTask t call

theorem now_pass (t : Listeners) (moment : Instant) :
    (happen t (.pass moment)).state.now = moment := by
  rw [(sameRecord_happen t _).now]
  exact now_advance t.state moment

theorem extension_happen (t : Listeners) (e : Event) :
    Extends t.state.log (happen t e).state.log := by
  have hsame := sameRecord_happen t e
  refine Extends.trans ?_ (.of_eq hsame.lines hsame.closed)
  cases e with
  | deed deed =>
    cases deed with
    | call command => exact (use_start (p := fun _ => True) trivial command).extension
    | cancel call =>
      rcases cancelTask_state (m := machinery) t call with ⟨w, -, hs⟩ | hs
      · exact .of_eq (congrArg (·.log.lines) hs) (congrArg (·.log.closed) hs)
      · exact .of_eq (congrArg (·.log.lines) hs) (congrArg (·.log.closed) hs)
  | pass moment => exact (use_advance (fun _ => True) t.state moment).extension

end

section

variable {t : Listeners} {es : List Event}

theorem now_le_after (h : Steady t es) : t.state.now ≤ (after t es).state.now := by
  induction es generalizing t with
  | nil => exact Nat.le_refl _
  | cons e es ih =>
    cases e with
    | deed deed =>
      have hrest := ih h
      rw [now_deed] at hrest
      exact hrest
    | pass moment =>
      have hrest := ih h.2
      rw [now_pass] at hrest
      exact Nat.le_trans h.1.1 hrest

theorem now_le_of_mem_deeds (h : Steady t es) {d : Instant × Deed} (hd : d ∈ deeds t es) :
    t.state.now ≤ d.1 := by
  induction es generalizing t with
  | nil => cases hd
  | cons e es ih =>
    cases e with
    | deed deed =>
      rcases List.mem_cons.mp hd with rfl | hd
      · exact Nat.le_refl _
      · have hrest := ih h hd
        rw [now_deed] at hrest
        exact hrest
    | pass moment =>
      have hrest := ih h.2 hd
      rw [now_pass] at hrest
      exact Nat.le_trans h.1.1 hrest

theorem mem_without {gone made : Nat} {ds : List (Instant × Deed)} {d : Instant × Deed}
    (h : d ∈ without gone made ds) : ∃ deed, (d.1, deed) ∈ ds := by
  induction ds generalizing made with
  | nil => cases h
  | cons x ds ih =>
    obtain ⟨time, deed⟩ := x
    have htail : ∀ {made}, d ∈ without gone made ds → ∃ deed', (d.1, deed') ∈ (time, deed) :: ds :=
      fun h => (ih h).imp fun _ => List.mem_cons_of_mem _
    have hcons : ∀ {made deed'}, d ∈ (time, deed') :: without gone made ds →
        ∃ deed', (d.1, deed') ∈ (time, deed) :: ds := by
      intro made deed' h
      rcases List.mem_cons.mp h with rfl | h
      · exact ⟨deed, List.mem_cons_self⟩
      · exact htail h
    cases deed with
    | call command =>
      rw [without] at h
      split at h
      · exact htail h
      · exact hcons h
    | cancel call =>
      rw [without] at h
      split at h
      · exact htail h
      · exact hcons h

end

structure SameLog (s u : Listening) : Prop extends SameFeed s u where
  lines : u.log.lines = s.log.lines
  closed : u.log.closed = s.log.closed

namespace SameLog

variable {r s u : Listening} {t : Listeners}

theorem refl (s : Listening) : SameLog s s := ⟨⟨rfl, rfl⟩, rfl, rfl⟩

theorem symm (h : SameLog s u) : SameLog u s :=
  ⟨⟨h.coming.symm, h.usualLimit.symm⟩, h.lines.symm, h.closed.symm⟩

theorem trans (h : SameLog r s) (k : SameLog s u) : SameLog r u :=
  ⟨⟨k.coming.trans h.coming, k.usualLimit.trans h.usualLimit⟩, k.lines.trans h.lines,
    k.closed.trans h.closed⟩

theorem settle (t : Listeners) : SameLog t.state (settle machinery t).state :=
  have hsame : SameRecord t.state (Timeline.settle machinery t).state := .settle ⟨rfl, rfl, rfl⟩
  ⟨.settle t, hsame.lines, hsame.closed⟩

theorem cancelTask (t : Listeners) (id : TaskId) :
    SameLog t.state (cancelTask machinery t id).1.state := by
  rcases cancelTask_state (m := machinery) t id with ⟨w, -, hs⟩ | hs <;> rw [hs]
  · exact ⟨⟨rfl, rfl⟩, rfl, rfl⟩
  · exact refl t.state

theorem append? (h : SameLog s u) (line : String) :
    (∃ a b, s.log.append? line = some a ∧ u.log.append? line = some b ∧ b.lines = a.lines ∧
      b.closed = a.closed) ∨ s.log.append? line = none ∧ u.log.append? line = none := by
  have hclosed := h.closed
  unfold OutputLog.append?
  cases hc : s.log.closed with
  | true => exact .inr ⟨rfl, by rw [hclosed, hc]; rfl⟩
  | false =>
    rw [hc] at hclosed
    refine .inl ⟨_, _, rfl, by rw [hclosed]; rfl, ?_, ?_⟩
    · exact congrArg (·.push line) h.lines
    · exact hclosed.trans hc.symm

theorem closeLog (h : SameLog s u) : SameLog s.closeLog u.closeLog := by
  have hlog : ∀ s : Listening, s.closeLog.log = s.log.close.1 := fun _ => rfl
  have hclose : ∀ log : OutputLog, log.close.1.lines = log.lines ∧ log.close.1.closed = true := by
    intro log
    rw [close_eq]
    split
    · exact ⟨rfl, ‹_›⟩
    · exact ⟨rfl, rfl⟩
  refine ⟨⟨h.coming, h.usualLimit⟩, ?_, ?_⟩
  · rw [hlog, hlog, (hclose _).1, (hclose _).1, h.lines]
  · rw [hlog, hlog, (hclose _).2, (hclose _).2]

theorem take (h : SameLog s u) (feed : Feed) : SameLog (s.take feed) (u.take feed) := by
  cases feed with
  | append line =>
    simp only [Listening.take]
    rcases h.append? line with ⟨a, b, ha, hb, hlines, hclosed⟩ | ⟨ha, hb⟩
    · rw [ha, hb]
      exact ⟨⟨h.coming, h.usualLimit⟩, hlines, hclosed⟩
    · rw [ha, hb]
      exact ⟨⟨h.coming, h.usualLimit⟩, h.lines, h.closed⟩
  | close => exact h.closeLog

theorem advance (h : SameLog s u) (moment : Instant) :
    SameLog (s.advance moment) (u.advance moment) := by
  have hall : ∀ (due : List (Instant × Feed)) (s u : Listening), SameLog s u →
      SameLog (due.foldl (fun s entry => s.take entry.2) s)
        (due.foldl (fun s entry => s.take entry.2) u) := by
    intro due
    induction due with
    | nil => exact fun _ _ h => h
    | cons entry due ih => exact fun _ _ h => ih _ _ (h.take entry.2)
  unfold Listening.advance
  rw [h.coming]
  exact hall _ _ _ ⟨⟨rfl, h.usualLimit⟩, h.lines, h.closed⟩

theorem advance_of_idle {moment : Instant} (h : ∀ entry ∈ s.coming, moment < entry.1) :
    SameLog s (s.advance moment) := by
  have hdue : s.coming.takeWhile (·.1 ≤ moment) = [] := by
    cases hc : s.coming with
    | nil => rfl
    | cons entry rest =>
      have hlt := h entry (hc ▸ List.mem_cons_self)
      exact List.takeWhile_cons_of_neg (by simpa using hlt)
  have hlater : s.coming.dropWhile (·.1 ≤ moment) = s.coming := by
    cases hc : s.coming with
    | nil => rfl
    | cons entry rest =>
      have hlt := h entry (hc ▸ List.mem_cons_self)
      exact List.dropWhile_cons_of_neg (by simpa using hlt)
  unfold Listening.advance
  rw [hdue, hlater]
  exact ⟨⟨rfl, rfl⟩, rfl, rfl⟩

theorem start_wait (s : Listening) (pattern : PatternText) (limit : Option Seconds) :
    SameLog s (start (.wait pattern limit) s).1 := by
  cases hc : pattern.compile with
  | error failure => simpa [start, hc] using refl s
  | ok compiled =>
    have hsame : SameRecord s (start (.wait pattern limit) s).1 := sameRecord_start_wait hc
    refine ⟨⟨coming_start _ s, ?_⟩, hsame.lines, hsame.closed⟩
    rw [Listening.start_wait hc rfl]
    rfl

theorem start (h : SameLog s u) (command : Command) :
    SameLog (start command s).1 (start command u).1 := by
  cases command with
  | wait pattern limit => exact ((start_wait s _ _).symm.trans h).trans (start_wait u _ _)
  | append line =>
    simp only [Listening.start]
    rcases h.append? line with ⟨a, b, ha, hb, hlines, hclosed⟩ | ⟨ha, hb⟩
    · rw [ha, hb]
      exact ⟨⟨h.coming, h.usualLimit⟩, hlines, hclosed⟩
    · rw [ha, hb]
      exact h
  | close => exact h.closeLog
  | state => exact h

end SameLog

structure Waits (w : LineWait) (id : TaskId) (t : Listeners) : Prop where
  attended : Attended w id t.state.log.lines.size t
  undecided : w.decision t.state.now t.state.log.lines.size t.state.log = none

theorem Waits.not_reached {w : LineWait} {id : TaskId} {t : Listeners} (h : Waits w id t) :
    Instant.reached t.state.now w.deadline = false :=
  (LineWait.decision_eq_none_iff.mp h.undecided).2.2

theorem Attended.settled {w : LineWait} {id : TaskId} {heard : Nat} {t : Listeners}
    (h : Attended w id heard t) :
    match w.decision t.state.now heard t.state.log with
    | some result => (Timeline.settle machinery t).tasks[id]? =
        some (.ended t.state.now (.result (result.map .found)))
    | none => Waits w id (Timeline.settle machinery t) := by
  have hsettled := h.settle
  have hsame : SameRecord t.state (Timeline.settle machinery t).state := .settle ⟨rfl, rfl, rfl⟩
  unfold Decided at hsettled
  cases hd : w.decision t.state.now heard t.state.log with
  | some result =>
    rw [hd] at hsettled
    exact hsettled
  | none =>
    rw [hd] at hsettled
    refine ⟨hsame.lines.symm ▸ hsettled, ?_⟩
    rw [hsame.now, hsame.lines, LineWait.decision_congr hsame.lines hsame.closed]
    exact LineWait.decision_size hd

/-- A wait waits on through an event that brings nothing and does not reach its deadline. -/
theorem Waits.happen {w : LineWait} {id : TaskId} {t : Listeners} {e : Event} (h : Waits w id t)
    (ha : Attended w id t.state.log.lines.size (strike t e))
    (hlog : SameLog t.state (strike t e).state)
    (hr : Instant.reached (strike t e).state.now w.deadline = false) : Waits w id (happen t e) := by
  have hsettled := ha.settled
  have hd : w.decision (strike t e).state.now t.state.log.lines.size (strike t e).state.log =
      none := by
    rw [LineWait.decision_congr hlog.lines hlog.closed]
    obtain ⟨hnone, hopen, -⟩ := LineWait.decision_eq_none_iff.mp h.undecided
    exact LineWait.decision_eq_none_iff.mpr ⟨hnone, hopen, hr⟩
  rw [hd] at hsettled
  exact hsettled

section

variable {commands : List Command} {k l : TaskId} {t u : Listeners}

/-- A call of one log and one of another that fare alike: both have ended at the same time, in the
same way unless the question was how many subscribers there are, or both are the same wait, but for
their queues. -/
inductive Alike (commands : List Command) (k l : TaskId) (t u : Listeners) : Prop where
  | ended {time : Instant} {one other : Ending Result} :
      t.tasks[k]? = some (.ended time one) → u.tasks[l]? = some (.ended time other) →
      (commands[k]? ≠ some .state → other = one) → Alike commands k l t u
  | waiting {w : LineWait} {queue : QueueId} : Waits w k t → Waits { w with queue } l u →
      Alike commands k l t u

/-- Calls that will fare alike when everything has settled: they have heard the same. -/
inductive Poised (commands : List Command) (k l : TaskId) (t u : Listeners) : Prop where
  | ended {time : Instant} {one other : Ending Result} :
      t.tasks[k]? = some (.ended time one) → u.tasks[l]? = some (.ended time other) →
      (commands[k]? ≠ some .state → other = one) → Poised commands k l t u
  | attended {w : LineWait} {queue : QueueId} {heard : Nat} : Attended w k heard t →
      Attended { w with queue } l heard u → Poised commands k l t u

theorem Poised.settle (h : Poised commands k l t u) (hlog : SameLog t.state u.state)
    (hnow : u.state.now = t.state.now) :
    Alike commands k l (settle machinery t) (settle machinery u) := by
  cases h with
  | ended hk hl hsame => exact .ended (ended_settle hk) (ended_settle hl) hsame
  | @attended w queue heard hk hl =>
    -- a decision does not depend on the queue
    have hdecision : ({ w with queue } : LineWait).decision u.state.now heard u.state.log =
        w.decision t.state.now heard t.state.log := by
      rw [hnow, LineWait.decision_congr hlog.lines hlog.closed]
      rfl
    have hone := hk.settled
    have hother := hl.settled
    rw [hdecision] at hother
    cases hd : w.decision t.state.now heard t.state.log with
    | some result =>
      rw [hd] at hone hother
      exact .ended hone (hnow ▸ hother) fun _ => rfl
    | none =>
      rw [hd] at hone hother
      exact .waiting hone hother

theorem poised_launch (ht : Tidy t) (hu : Tidy u) (hlog : SameLog t.state u.state)
    (hnow : u.state.now = t.state.now) {command : Command}
    (hcommand : commands[t.tasks.size]? = some command) :
    Poised commands t.tasks.size u.tasks.size (launch machinery t (.act command))
      (launch machinery u (.act command)) := by
  have htask : ∀ t : Listeners, (launch machinery t (.act command)).tasks[t.tasks.size]? =
      some (.ofProgress (start command t.state).1.now (start command t.state).2) := fun t =>
    push_size _ _
  have hended : ∀ a b : Result, (start command t.state).2 = .done a →
      (start command u.state).2 = .done b → (command ≠ .state → b = a) →
      Poised commands t.tasks.size u.tasks.size (launch machinery t (.act command))
        (launch machinery u (.act command)) := by
    intro a b ha hb hsame
    have hone := htask t
    have hother := htask u
    rw [ha, now_start] at hone
    rw [hb, now_start, hnow] at hother
    refine .ended hone hother fun hne => ?_
    rw [hsame fun he => hne (he ▸ hcommand)]
  -- only a wait can go on after it has begun; all else is answered at once
  cases command with
  | wait pattern limit =>
    cases hc : pattern.compile with
    | error failure =>
      exact hended (.error failure) (.error failure) (by simp only [start, hc])
        (by simp only [start, hc]) fun _ => rfl
    | ok compiled =>
      obtain ⟨w, hw⟩ : ∃ w, w = (LineWait.start compiled (limit.getD t.state.usualLimit)
        t.state.now t.state.log).2 := ⟨_, rfl⟩
      have hv : { w with queue := u.state.log.queues.size } =
          (LineWait.start compiled (limit.getD u.state.usualLimit) u.state.now u.state.log).2 := by
        have hqueue : ∀ log : OutputLog, log.subscribe.2 = log.queues.size := subscribe_snd
        simp only [hw, LineWait.start, hnow, hlog.usualLimit, hqueue]
      have hdecision : ({ w with queue := u.state.log.queues.size } : LineWait).decision
          u.state.now u.state.log.lines.size u.state.log =
            w.decision t.state.now t.state.log.lines.size t.state.log := by
        rw [hnow, hlog.lines, LineWait.decision_congr hlog.lines hlog.closed]
        rfl
      cases hd : w.decision t.state.now t.state.log.lines.size t.state.log with
      | some result =>
        have hone := progress_start_wait ht.bounded hc hw
        have hother := progress_start_wait hu.bounded hc hv
        rw [hd] at hone hdecision
        rw [hdecision] at hother
        exact hended _ _ hone hother fun _ => rfl
      | none =>
        have hstep : (Step.act (Command.wait pattern limit)).command? =
            some (.wait pattern limit) := rfl
        have hone := attended_begin ht hstep hc hw hd
        have hother := attended_begin hu hstep hc hv (hdecision.trans hd)
        rw [hlog.lines] at hother
        exact .attended hone hother
  | append line =>
    rcases hlog.append? line with ⟨a, b, ha, hb, -, -⟩ | ⟨ha, hb⟩
    · exact hended (.ok .nothing) (.ok .nothing) (by simp only [start, ha])
        (by simp only [start, hb]) fun _ => rfl
    · exact hended (.error .closedLog) (.error .closedLog) (by simp only [start, ha])
        (by simp only [start, hb]) fun _ => rfl
  | close => exact hended (.ok .nothing) (.ok .nothing) rfl rfl fun _ => rfl
  | state => exact hended _ _ rfl rfl fun hne => absurd rfl hne

end

end Overseer.Listening
