import Mathlib.Data.List.Basic
import Overseer.LineWait

/-!
# What a subscriber gets

The queue of a subscriber holds the lines that have been added since it was emptied last, and the
end mark once the log is closed (`Backlog`). Nothing that is done with the log for others changes
that. So what a wait finds in its queue is decided by the log alone (`LineWait.decision`).
-/

namespace Overseer

open Pattern

namespace OutputLog

variable {log : OutputLog} {q other : QueueId} {item : Item} {line : String}

def Bounded (log : OutputLog) : Prop := ∀ q ∈ log.subscribers, q < log.queues.size

/-- A log that has gone on from another one: it has kept all lines, and nothing has come after the
end. -/
structure Extends (before after : OutputLog) : Prop where
  kept : before.lines.toList <+: after.lines.toList
  final : before.closed = true → after.closed = true ∧ after.lines = before.lines

theorem Extends.refl (log : OutputLog) : Extends log log := ⟨List.prefix_rfl, fun h => ⟨h, rfl⟩⟩

theorem Extends.trans {a b c : OutputLog} (h : Extends a b) (k : Extends b c) : Extends a c where
  kept := h.kept.trans k.kept
  final hc := by
    obtain ⟨hb, hl⟩ := h.final hc
    obtain ⟨hc, hk⟩ := k.final hb
    exact ⟨hc, hk.trans hl⟩

@[simp] theorem lines_put (log : OutputLog) (item : Item) : (log.put item).lines = log.lines := rfl
@[simp] theorem closed_put (log : OutputLog) (item : Item) :
    (log.put item).closed = log.closed := rfl
@[simp] theorem subscribers_put (log : OutputLog) (item : Item) :
    (log.put item).subscribers = log.subscribers := rfl

@[simp] theorem lines_drain (log : OutputLog) (q : QueueId) :
    (log.drain q).1.lines = log.lines := rfl
@[simp] theorem closed_drain (log : OutputLog) (q : QueueId) :
    (log.drain q).1.closed = log.closed := rfl
@[simp] theorem subscribers_drain (log : OutputLog) (q : QueueId) :
    (log.drain q).1.subscribers = log.subscribers := rfl
@[simp] theorem size_drain (log : OutputLog) (q : QueueId) :
    (log.drain q).1.queues.size = log.queues.size := by simp [drain]

@[simp] theorem lines_unsubscribe (log : OutputLog) (q : QueueId) :
    (log.unsubscribe q).lines = log.lines := rfl
@[simp] theorem closed_unsubscribe (log : OutputLog) (q : QueueId) :
    (log.unsubscribe q).closed = log.closed := rfl
@[simp] theorem queues_unsubscribe (log : OutputLog) (q : QueueId) :
    (log.unsubscribe q).queues = log.queues := rfl

@[simp] theorem lines_subscribe (log : OutputLog) : log.subscribe.1.lines = log.lines := by
  unfold subscribe
  split <;> rfl

@[simp] theorem closed_subscribe (log : OutputLog) : log.subscribe.1.closed = log.closed := by
  unfold subscribe
  split <;> simp_all

@[simp] theorem subscribe_snd (log : OutputLog) : log.subscribe.2 = log.queues.size := by
  unfold subscribe
  split <;> rfl

@[simp] theorem size_subscribe (log : OutputLog) :
    log.subscribe.1.queues.size = log.queues.size + 1 := by
  unfold subscribe
  split <;> simp

theorem size_foldl_modify (ids : List QueueId) (queues : Array (Array Item)) (item : Item) :
    (ids.foldl (fun queues q => queues.modify q (·.push item)) queues).size = queues.size := by
  induction ids generalizing queues with
  | nil => rfl
  | cons id ids ih => rw [List.foldl_cons, ih, Array.size_modify]

@[simp] theorem size_put (log : OutputLog) (item : Item) :
    (log.put item).queues.size = log.queues.size := size_foldl_modify _ _ _

theorem append?_eq_some {after : OutputLog} (h : log.append? line = some after) :
    log.closed = false ∧ after = { log.put (.line line) with lines := log.lines.push line } := by
  unfold append? at h
  split at h
  · cases h
  · exact ⟨by simpa using ‹¬ log.closed = true›, (Option.some.inj h).symm⟩

theorem close_eq (log : OutputLog) :
    log.close.1 = if log.closed then log else { log.put .ended with closed := true } := by
  unfold close
  split <;> rfl

theorem Extends.append {after : OutputLog} (h : log.append? line = some after) :
    Extends log after := by
  obtain ⟨ho, rfl⟩ := append?_eq_some h
  refine ⟨?_, fun hc => ?_⟩
  · simp only [Array.toList_push]
    exact List.prefix_append _ _
  · rw [ho] at hc
    cases hc

theorem Extends.close (log : OutputLog) : Extends log log.close.1 := by
  rw [close_eq]
  split
  · exact .refl log
  · exact ⟨List.prefix_rfl, fun hc => ⟨rfl, rfl⟩⟩

theorem Extends.of_eq {before after : OutputLog} (hl : after.lines = before.lines)
    (hc : after.closed = before.closed) : Extends before after :=
  ⟨hl ▸ List.prefix_rfl, fun h => ⟨hc.trans h, hl⟩⟩

namespace Bounded

theorem put (h : log.Bounded) : (log.put item).Bounded := fun q hq => by
  rw [size_put]
  exact h q hq

theorem append {after : OutputLog} (h : log.Bounded) (ha : log.append? line = some after) :
    after.Bounded := by
  obtain ⟨-, rfl⟩ := append?_eq_some ha
  exact h.put

theorem close (h : log.Bounded) : log.close.1.Bounded := by
  rw [close_eq]
  split
  · exact h
  · exact h.put

theorem subscribe (h : log.Bounded) : log.subscribe.1.Bounded := by
  intro q hq
  rw [size_subscribe]
  unfold OutputLog.subscribe at hq
  split at hq
  · exact Nat.lt_succ_of_lt (h q hq)
  · rcases List.mem_append.mp hq with hq | hq
    · exact Nat.lt_succ_of_lt (h q hq)
    · rw [List.mem_singleton.mp hq]
      exact Nat.lt_succ_self _

theorem drain (h : log.Bounded) (q : QueueId) : (log.drain q).1.Bounded := fun p hp => by
  rw [size_drain]
  exact h p hp

theorem unsubscribe (h : log.Bounded) (q : QueueId) : (log.unsubscribe q).Bounded := fun p hp =>
  h p (List.mem_of_mem_erase hp)

end Bounded

theorem queue_foldl_modify (ids : List QueueId) (queues : Array (Array Item)) (item : Item)
    (hq : q < queues.size) :
    ((ids.foldl (fun queues q => queues.modify q (·.push item)) queues)[q]?.getD #[]).toList =
      (queues[q]?.getD #[]).toList ++ List.replicate (ids.count q) item := by
  induction ids generalizing queues with
  | nil => simp
  | cons id ids ih =>
    rw [List.foldl_cons, ih _ (by simpa using hq)]
    by_cases he : id = q
    · subst he
      simp [hq, Array.getElem_modify, List.replicate_succ]
    · simp [hq, he, Array.getElem_modify]

/-- An item that is put into the queues reaches each as often as it is subscribed. -/
theorem queue_put (hq : q < log.queues.size) (item : Item) :
    ((log.put item).queue q).toList =
      (log.queue q).toList ++ List.replicate (log.subscribers.count q) item :=
  queue_foldl_modify _ _ _ hq

theorem queue_drain_self (hq : q < log.queues.size) : (log.drain q).1.queue q = #[] := by
  simp [drain, queue, hq]

theorem queue_drain_of_ne (h : other ≠ q) : (log.drain other).1.queue q = log.queue q := by
  simp [drain, queue, Array.getElem?_setIfInBounds_ne h]

theorem queue_subscribe (hq : q < log.queues.size) : log.subscribe.1.queue q = log.queue q := by
  unfold subscribe
  split <;> simp [queue, Array.getElem?_push, Nat.ne_of_lt hq]

/-- A queue that holds the lines from a certain one on, and the end mark if the log is closed. -/
structure Backlog (log : OutputLog) (q : QueueId) (heard : Nat) : Prop where
  bound : q < log.queues.size
  heard_le : heard ≤ log.lines.size
  subscribed : log.closed = false → log.subscribers.count q = 1
  items : (log.queue q).toList =
    (log.lines.toList.drop heard).map .line ++ if log.closed then [.ended] else []

namespace Backlog

variable {heard : Nat}

theorem append {after : OutputLog} (h : Backlog log q heard) (ha : log.append? line = some after) :
    Backlog after q heard := by
  obtain ⟨ho, rfl⟩ := append?_eq_some ha
  have hq : ((log.put (.line line)).queue q).toList = (log.queue q).toList ++ [.line line] := by
    rw [queue_put h.bound, h.subscribed ho, List.replicate_one]
  refine ⟨?_, ?_, h.subscribed, ?_⟩
  · exact (size_put log _).symm ▸ h.bound
  · simpa using Nat.le_succ_of_le h.heard_le
  · refine hq.trans ?_
    rw [h.items]
    simp [ho, List.drop_append_of_le_length, h.heard_le]

theorem close (h : Backlog log q heard) : Backlog log.close.1 q heard := by
  rw [close_eq]
  by_cases ho : log.closed
  · rwa [if_pos ho]
  · rw [if_neg ho]
    replace ho : log.closed = false := by simpa using ho
    have hq : ((log.put .ended).queue q).toList = (log.queue q).toList ++ [.ended] := by
      rw [queue_put h.bound, h.subscribed ho, List.replicate_one]
    refine ⟨?_, h.heard_le, ?_, ?_⟩
    · exact (size_put log _).symm ▸ h.bound
    · intro hc
      cases hc
    · refine hq.trans ?_
      rw [h.items]
      simp [ho]

theorem subscribe (h : Backlog log q heard) : Backlog log.subscribe.1 q heard := by
  refine ⟨?_, ?_, fun ho => ?_, ?_⟩
  · rw [size_subscribe]
    exact Nat.lt_succ_of_lt h.bound
  · rw [lines_subscribe]
    exact h.heard_le
  · rw [closed_subscribe] at ho
    have hne : log.queues.size ≠ q := Nat.ne_of_gt h.bound
    simp [OutputLog.subscribe, ho, h.subscribed ho, hne]
  · rw [queue_subscribe h.bound, h.items, lines_subscribe, closed_subscribe]

theorem unsubscribe (h : Backlog log q heard) (hne : other ≠ q) :
    Backlog (log.unsubscribe other) q heard where
  bound := h.bound
  heard_le := h.heard_le
  subscribed ho := by
    rw [OutputLog.unsubscribe, List.count_erase_of_ne hne.symm]
    exact h.subscribed ho
  items := h.items

theorem drain (h : Backlog log q heard) (hne : other ≠ q) :
    Backlog (log.drain other).1 q heard where
  bound := by
    rw [size_drain]
    exact h.bound
  heard_le := h.heard_le
  subscribed := h.subscribed
  items := by
    rw [queue_drain_of_ne hne]
    exact h.items

/-- A queue that is emptied while the log is open has heard all lines. -/
theorem drain_self (h : Backlog log q heard) (ho : log.closed = false) :
    Backlog (log.drain q).1 q log.lines.size where
  bound := by
    rw [size_drain]
    exact h.bound
  heard_le := Nat.le_refl _
  subscribed := h.subscribed
  items := by
    rw [queue_drain_self h.bound]
    simp [ho]

/-- A new queue holds nothing of what was there before, but the end mark if that is past. -/
theorem of_subscribe (h : log.Bounded) :
    Backlog log.subscribe.1 log.queues.size log.lines.size := by
  have hnew : log.subscribers.count log.queues.size = 0 :=
    List.count_eq_zero.mpr fun hm => Nat.lt_irrefl _ (h _ hm)
  refine ⟨?_, ?_, fun ho => ?_, ?_⟩
  · rw [size_subscribe]
    exact Nat.lt_succ_self _
  · exact Nat.le_of_eq (congrArg Array.size (lines_subscribe log).symm)
  · rw [closed_subscribe] at ho
    simp [OutputLog.subscribe, ho, hnew]
  · by_cases ho : log.closed <;> simp [OutputLog.subscribe, ho, queue]

end Backlog

/-- What a log comes to when lines are added, it is closed, queues are made, and those that `p`
holds of are emptied or unsubscribed. -/
inductive Use (p : QueueId → Prop) (log : OutputLog) : OutputLog → Prop where
  | refl : Use p log log
  | append {before after} {line : String} : Use p log before →
      before.append? line = some after → Use p log after
  | close {before} : Use p log before → Use p log before.close.1
  | subscribe {before} : Use p log before → Use p log before.subscribe.1
  | unsubscribe {before} {q : QueueId} : Use p log before → p q →
      Use p log (before.unsubscribe q)
  | drain {before} {q : QueueId} : Use p log before → p q → Use p log (before.drain q).1

namespace Use

variable {p : QueueId → Prop} {after : OutputLog} {heard : Nat}

theorem extension (h : Use p log after) : Extends log after := by
  induction h with
  | refl => exact .refl log
  | append _ ha ih => exact ih.trans (.append ha)
  | close _ ih => exact ih.trans (.close _)
  | subscribe _ ih => exact ih.trans (.of_eq (lines_subscribe _) (closed_subscribe _))
  | unsubscribe _ _ ih => exact ih.trans (.of_eq rfl rfl)
  | drain _ _ ih => exact ih.trans (.of_eq rfl rfl)

theorem bounded (h : Use p log after) (hb : log.Bounded) : after.Bounded := by
  induction h with
  | refl => exact hb
  | append _ ha ih => exact ih.append ha
  | close _ ih => exact ih.close
  | subscribe _ ih => exact ih.subscribe
  | unsubscribe _ _ ih => exact ih.unsubscribe _
  | drain _ _ ih => exact ih.drain _

theorem size_le (h : Use p log after) : log.queues.size ≤ after.queues.size := by
  induction h with
  | refl => exact Nat.le_refl _
  | append _ ha ih =>
    obtain ⟨-, rfl⟩ := append?_eq_some ha
    exact (size_put _ _).symm ▸ ih
  | close _ ih =>
    rw [close_eq]
    split
    · exact ih
    · exact (size_put _ _).symm ▸ ih
  | subscribe _ ih =>
    rw [size_subscribe]
    exact Nat.le_succ_of_le ih
  | unsubscribe _ _ ih => exact ih
  | drain _ _ ih =>
    rw [size_drain]
    exact ih

theorem backlog (h : Use (· ≠ q) log after) (hb : Backlog log q heard) : Backlog after q heard := by
  induction h with
  | refl => exact hb
  | append _ ha ih => exact ih.append ha
  | close _ ih => exact ih.close
  | subscribe _ ih => exact ih.subscribe
  | unsubscribe _ hne ih => exact ih.unsubscribe hne
  | drain _ hne ih => exact ih.drain hne

end Use

end OutputLog

namespace LineWait

open OutputLog

variable {w : LineWait} {log : OutputLog} {now : Instant} {heard : Nat}

theorem queue_start (pattern : Compiled) (limit : Number.Seconds) (now : Instant)
    (log : OutputLog) : (start pattern limit now log).2.queue = log.queues.size :=
  subscribe_snd log

/-- What a wait comes to that has heard so many lines of a log, by the log alone. -/
def decision (w : LineWait) (now : Instant) (heard : Nat) (log : OutputLog) : Option Result :=
  match (log.lines.toList.drop heard).findSome? w.pattern.search with
  | some found => some (.ok found)
  | none =>
    if log.closed then some (.error (.streamClosed w.pattern.text log.snapshot))
    else if Instant.reached now w.deadline then some (.error (w.timeoutFailure log.snapshot))
    else none

theorem verdict_lines (pattern : Compiled) (output : String) (lines : List String)
    (rest : List Item) :
    verdict pattern output (lines.map .line ++ rest) =
      match lines.findSome? pattern.search with
      | some found => some (.ok found)
      | none => verdict pattern output rest := by
  induction lines with
  | nil => rfl
  | cons line lines ih =>
    rw [List.map_cons, List.cons_append, verdict, List.findSome?_cons]
    cases pattern.search line with
    | some found => rfl
    | none => exact ih

/-- A wait leaves the log with its queue emptied, and unsubscribed if the wait is over. -/
theorem poll_log (w : LineWait) (now : Instant) (log : OutputLog) :
    (w.poll now log).1 = (log.drain w.queue).1 ∨
      (w.poll now log).1 = (log.drain w.queue).1.unsubscribe w.queue := by
  simp only [poll]
  split
  · exact .inr rfl
  · split
    · exact .inr rfl
    · exact .inl rfl

@[simp] theorem lines_poll (w : LineWait) (now : Instant) (log : OutputLog) :
    (w.poll now log).1.lines = log.lines := by
  rcases poll_log w now log with h | h <;> rw [h] <;> rfl

@[simp] theorem closed_poll (w : LineWait) (now : Instant) (log : OutputLog) :
    (w.poll now log).1.closed = log.closed := by
  rcases poll_log w now log with h | h <;> rw [h] <;> rfl

theorem use_poll {p : QueueId → Prop} {before : OutputLog} (h : Use p before log)
    (hw : p w.queue) (now : Instant) : Use p before (w.poll now log).1 := by
  rcases poll_log w now log with hl | hl
  · rw [hl]
    exact h.drain hw
  · rw [hl]
    exact (h.drain hw).unsubscribe hw

/-- A wait that goes on stays as it is, and its limit has not run out. -/
theorem pending_poll {rest : LineWait} (h : (w.poll now log).2.2 = .pending rest) :
    rest = w ∧ Instant.reached now w.deadline = false ∧ (w.poll now log).1 =
      (log.drain w.queue).1 := by
  revert h
  simp only [poll]
  split
  · intro h
    cases h
  · split
    · intro h
      cases h
    · intro h
      exact ⟨(Progress.pending.inj h).symm,
        by simpa using ‹¬ Instant.reached now w.deadline = true›,
        rfl⟩

theorem poll_eq_decision (h : Backlog log w.queue heard) :
    (w.poll now log).2.2 = match w.decision now heard log with
      | some result => .done result
      | none => .pending w := by
  have hv : verdict w.pattern log.snapshot (log.queue w.queue).toList =
      match (log.lines.toList.drop heard).findSome? w.pattern.search with
      | some found => some (.ok found)
      | none => if log.closed then some (.error (.streamClosed w.pattern.text log.snapshot))
        else none := by
    rw [h.items, verdict_lines]
    cases (log.lines.toList.drop heard).findSome? w.pattern.search with
    | some found => rfl
    | none => cases log.closed <;> rfl
  have hs : (log.drain w.queue).1.snapshot = log.snapshot := rfl
  have hi : (log.drain w.queue).2 = log.queue w.queue := rfl
  simp only [poll, hs, hi, hv, decision]
  cases (log.lines.toList.drop heard).findSome? w.pattern.search with
  | some found => rfl
  | none =>
    by_cases hc : log.closed
    · simp [hc]
    · by_cases hd : Instant.reached now w.deadline <;> simp [hc, hd]

theorem decision_congr {other : OutputLog} (hl : other.lines = log.lines)
    (hc : other.closed = log.closed) : w.decision now heard other = w.decision now heard log := by
  simp only [decision, snapshot, hl, hc]

theorem decision_eq_none_iff :
    w.decision now heard log = none ↔
      (∀ line ∈ log.lines.toList.drop heard, w.pattern.search line = none) ∧ log.closed = false ∧
        Instant.reached now w.deadline = false := by
  unfold decision
  rw [← List.findSome?_eq_none_iff]
  cases (log.lines.toList.drop heard).findSome? w.pattern.search with
  | some found => simp
  | none => cases log.closed <;> cases Instant.reached now w.deadline <;> simp

/-- A wait that has nothing to come to has nothing to come to either when it has heard all lines. -/
theorem decision_size (h : w.decision now heard log = none) :
    w.decision now log.lines.size log = none := by
  obtain ⟨-, hc, hr⟩ := decision_eq_none_iff.mp h
  refine decision_eq_none_iff.mpr ⟨fun line hl => ?_, hc, hr⟩
  rw [List.drop_eq_nil_of_le (by simp)] at hl
  cases hl

theorem backlog_poll_self (h : Backlog log w.queue heard) (hd : w.decision now heard log = none) :
    Backlog (w.poll now log).1 w.queue log.lines.size := by
  have ho : log.closed = false := (decision_eq_none_iff.mp hd).2.1
  have hp : (w.poll now log).2.2 = _ := poll_eq_decision h
  rw [hd] at hp
  rw [(pending_poll hp).2.2]
  exact h.drain_self ho

end LineWait

end Overseer
