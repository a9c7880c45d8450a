import Overseer.Proofs.OutputLog.Subscription

/-!
# What is put into a queue

A queue gets the lines that are added from its subscription on, until it is unsubscribed or the log
is closed, and in the second case the end mark (`OutputLog.window`). Nothing else is ever put into
it, whatever is done with the log and with other queues, and what is taken out of it is what has
been put in, in the same order. -/

namespace Overseer.OutputLog

inductive Operation where
  | append (line : String)
  | close
  | subscribe
  | unsubscribe (q : QueueId)
  | drain (q : QueueId)
  deriving DecidableEq, Repr

namespace Operation

def item? : Operation → Option Item
  | .append line => some (.line line)
  | .close => some .ended
  | _ => none

def line? : Operation → Option String
  | .append line => some line
  | _ => none

def keeps (q : QueueId) : Operation → Bool
  | .close => false
  | .unsubscribe p => p != q
  | _ => true

/-- What an operation means to a subscriber: an item, or the loss of its subscription. What is done
with other queues means nothing to it, and no more does it when its own queue is emptied. -/
def tiding? (q : QueueId) : Operation → Option (Option Item)
  | .append line => some (some (.line line))
  | .close => some (some .ended)
  | .unsubscribe p => if p = q then some none else none
  | .subscribe | .drain _ => none

end Operation

def apply (log : OutputLog) : Operation → OutputLog
  | .append line => (log.append? line).getD log
  | .close => log.close.1
  | .subscribe => log.subscribe.1
  | .unsubscribe q => log.unsubscribe q
  | .drain q => (log.drain q).1

def applyAll (log : OutputLog) (ops : List Operation) : OutputLog := ops.foldl apply log

def taken (log : OutputLog) (q : QueueId) : Operation → List Item
  | .drain p => if p = q then (log.drain q).2.toList else []
  | _ => []

def added (log : OutputLog) (q : QueueId) (op : Operation) : List Item :=
  ((log.apply op).queue q).toList.drop (log.queue q).size

def drained (q : QueueId) : OutputLog → List Operation → List Item
  | _, [] => []
  | log, op :: ops => log.taken q op ++ drained q (log.apply op) ops

def delivered (q : QueueId) : OutputLog → List Operation → List Item
  | _, [] => []
  | log, op :: ops => log.added q op ++ delivered q (log.apply op) ops

/-- What a queue is to get of some operations from its subscription on: the lines that are added
until it is unsubscribed or the log is closed, and the end mark if it is the close that comes. -/
def window (q : QueueId) (ops : List Operation) : List Item :=
  ((ops.takeWhile (Operation.keeps q)).filterMap Operation.line?).map .line ++
    if (ops.dropWhile (Operation.keeps q)).head? = some .close then [.ended] else []

def heard : List (Option Item) → List Item
  | [] => []
  | none :: _ => []
  | some .ended :: _ => [.ended]
  | some (.line line) :: tidings => .line line :: heard tidings

section

variable {log : OutputLog} {q : QueueId}

theorem applyAll_cons (log : OutputLog) (op : Operation) (ops : List Operation) :
    log.applyAll (op :: ops) = (log.apply op).applyAll ops := rfl

theorem delivered_append (q : QueueId) (log : OutputLog) (ops more : List Operation) :
    delivered q log (ops ++ more) = delivered q log ops ++ delivered q (log.applyAll ops) more := by
  induction ops generalizing log with
  | nil => rfl
  | cons op ops ih =>
    rw [List.cons_append, delivered, delivered, ih, List.append_assoc]
    rfl

theorem drained_append (q : QueueId) (log : OutputLog) (ops more : List Operation) :
    drained q log (ops ++ more) = drained q log ops ++ drained q (log.applyAll ops) more := by
  induction ops generalizing log with
  | nil => rfl
  | cons op ops ih =>
    rw [List.cons_append, drained, drained, ih, List.append_assoc]
    rfl

theorem apply_append (line : String) :
    log.apply (.append line) =
      if log.closed then log else { log.put (.line line) with lines := log.lines.push line } := by
  change (log.append? line).getD log = _
  unfold append?
  split <;> rfl

theorem closed_apply (op : Operation) :
    (log.apply op).closed = (log.closed || op == .close) := by
  cases op with
  | append line =>
    rw [apply_append]
    split <;> simp
  | close =>
    rw [apply, close_eq]
    by_cases hc : log.closed = true <;> simp [hc]
  | subscribe => simp [apply]
  | unsubscribe p => simp [apply]
  | drain p => simp [apply]

theorem size_apply_le (op : Operation) : log.queues.size ≤ (log.apply op).queues.size := by
  cases op with
  | append line =>
    rw [apply_append]
    split
    · exact Nat.le_refl _
    · exact Nat.le_of_eq (size_put log _).symm
  | close =>
    rw [apply, close_eq]
    split
    · exact Nat.le_refl _
    · exact Nat.le_of_eq (size_put log _).symm
  | subscribe => simp [apply]
  | unsubscribe p => simp [apply]
  | drain p => simp [apply]

theorem Bounded.apply (h : log.Bounded) (op : Operation) : (log.apply op).Bounded := by
  cases op with
  | append line =>
    rw [apply_append]
    split
    · exact h
    · exact h.put
  | close => exact h.close
  | subscribe => exact h.subscribe
  | unsubscribe p => exact h.unsubscribe p
  | drain p => exact h.drain p

/-- An item that comes while the log is open goes into each subscribed queue, after what is there;
all else leaves the queues alone, but for the one that is emptied. -/
theorem queue_apply (hq : q < log.queues.size) (op : Operation) :
    (log.queue q).toList ++
        (if log.closed then [] else
          op.item?.toList.flatMap (List.replicate (log.subscribers.count q))) =
      log.taken q op ++ ((log.apply op).queue q).toList := by
  cases op with
  | append line =>
    rw [apply_append]
    by_cases hc : log.closed = true
    · simp [hc, taken]
    · have hput : ((log.put (.line line)).queue q).toList = _ := queue_put hq _
      simp only [hc, Bool.false_eq_true, ↓reduceIte, taken, List.nil_append, Operation.item?,
        Option.toList_some, List.flatMap_singleton]
      exact hput.symm
  | close =>
    rw [apply, close_eq]
    by_cases hc : log.closed = true
    · simp [hc, taken]
    · have hput : ((log.put .ended).queue q).toList = _ := queue_put hq _
      simp only [hc, Bool.false_eq_true, ↓reduceIte, taken, List.nil_append, Operation.item?,
        Option.toList_some, List.flatMap_singleton]
      exact hput.symm
  | subscribe => simp [apply, taken, Operation.item?, queue_subscribe hq]
  | unsubscribe p => simp [apply, taken, Operation.item?, queue]
  | drain p =>
    by_cases hp : p = q
    · subst hp
      have hempty : (log.apply (.drain p)).queue p = #[] := queue_drain_self hq
      simp [hempty, taken, Operation.item?, drain]
    · simp [apply, taken, Operation.item?, hp, queue_drain_of_ne hp]

theorem added_eq (hq : q < log.queues.size) (op : Operation) :
    log.added q op = if log.closed then [] else
      op.item?.toList.flatMap (List.replicate (log.subscribers.count q)) := by
  have h := queue_apply hq op
  have hlength : (log.queue q).toList.length = (log.queue q).size := Array.length_toList
  unfold added
  by_cases hop : op = .drain q
  · -- what is emptied has nothing put into it
    subst hop
    have hempty : (log.apply (.drain q)).queue q = #[] := queue_drain_self hq
    simp [hempty, Operation.item?]
  · have hnone : log.taken q op = [] := by
      cases op with
      | drain p =>
        have hp : p ≠ q := fun he => hop (he ▸ rfl)
        simp [taken, hp]
      | _ => rfl
    rw [hnone, List.nil_append] at h
    rw [← h, ← hlength, List.drop_left]

theorem queue_of_size_le (h : log.queues.size ≤ q) : log.queue q = #[] := by
  simp [queue, Array.getElem?_eq_none h]

theorem queue_append_added (log : OutputLog) (q : QueueId) (op : Operation) :
    (log.queue q).toList ++ log.added q op = log.taken q op ++ ((log.apply op).queue q).toList := by
  by_cases hq : q < log.queues.size
  · rw [added_eq hq, queue_apply hq]
  · have hempty : log.queue q = #[] := queue_of_size_le (Nat.le_of_not_lt hq)
    have hnone : log.taken q op = [] := by
      cases op with
      | drain p =>
        by_cases hp : p = q
        · subst hp
          simp [taken, drain, hempty]
        · simp [taken, hp]
      | _ => rfl
    rw [added, hempty, hnone]
    simp

/-- Nothing is lost and nothing made up: what was in a queue and what is put into it is taken out or
still there. -/
theorem queue_append_delivered (log : OutputLog) (q : QueueId) (ops : List Operation) :
    (log.queue q).toList ++ delivered q log ops =
      drained q log ops ++ ((log.applyAll ops).queue q).toList := by
  induction ops generalizing log with
  | nil => simp [delivered, drained, applyAll]
  | cons op ops ih =>
    rw [delivered, drained, ← List.append_assoc, queue_append_added, List.append_assoc, ih,
      applyAll_cons, List.append_assoc]

theorem size_le_applyAll (ops : List Operation) :
    log.queues.size ≤ (log.applyAll ops).queues.size := by
  induction ops generalizing log with
  | nil => exact Nat.le_refl _
  | cons op ops ih => exact Nat.le_trans (size_apply_le op) ih

theorem delivered_of_size_le {ops : List Operation} (h : (log.applyAll ops).queues.size ≤ q) :
    delivered q log ops = [] := by
  induction ops generalizing log with
  | nil => rfl
  | cons op ops ih =>
    have hgrown : (log.apply op).queues.size ≤ ((log.apply op).applyAll ops).queues.size :=
      size_le_applyAll ops
    have hnext : (log.apply op).queues.size ≤ q := Nat.le_trans hgrown h
    rw [delivered, ih h, added, queue_of_size_le hnext]
    simp

theorem bounded_applyAll (h : log.Bounded) (ops : List Operation) : (log.applyAll ops).Bounded := by
  induction ops generalizing log with
  | nil => exact h
  | cons op ops ih => exact ih (h.apply op)

theorem closed_applyAll (ops : List Operation) :
    (log.applyAll ops).closed = (log.closed || ops.contains .close) := by
  induction ops generalizing log with
  | nil => simp [applyAll]
  | cons op ops ih =>
    rw [applyAll_cons, ih, closed_apply, List.contains_cons, Bool.or_assoc, BEq.comm]

def Deaf (log : OutputLog) (q : QueueId) : Prop :=
  log.closed = true ∨ log.subscribers.count q = 0

def Hears (log : OutputLog) (q : QueueId) : Prop :=
  log.closed = false ∧ log.subscribers.count q = 1

theorem count_apply (hq : q < log.queues.size) (op : Operation) :
    (log.apply op).subscribers.count q =
      if op = .unsubscribe q then log.subscribers.count q - 1 else log.subscribers.count q := by
  cases op with
  | append line =>
    rw [apply_append]
    split <;> simp
  | close =>
    rw [apply, close_eq]
    split <;> simp
  | subscribe =>
    have hne : log.queues.size ≠ q := Nat.ne_of_gt hq
    change log.subscribe.1.subscribers.count q = _
    unfold subscribe
    split <;> simp [hne]
  | unsubscribe p =>
    by_cases hp : p = q
    · subst hp
      simp [apply, unsubscribe]
    · simp [apply, unsubscribe, hp, List.count_erase_of_ne (Ne.symm hp)]
  | drain p => simp [apply]

theorem Deaf.apply (h : log.Deaf q) (hq : q < log.queues.size) (op : Operation) :
    (log.apply op).Deaf q := by
  rcases h with hc | hn
  · left
    rw [closed_apply, hc, Bool.true_or]
  · right
    rw [count_apply hq, hn]
    split <;> rfl

theorem Deaf.delivered (h : log.Deaf q) (hq : q < log.queues.size) (ops : List Operation) :
    delivered q log ops = [] := by
  induction ops generalizing log with
  | nil => rfl
  | cons op ops ih =>
    have hnone : log.added q op = [] := by
      rw [added_eq hq]
      rcases h with hc | hn
      · rw [if_pos hc]
      · rw [hn]
        cases op.item? <;> simp
    rw [OutputLog.delivered, hnone, List.nil_append]
    exact ih (h.apply hq op) (Nat.lt_of_lt_of_le hq (size_apply_le op))

theorem Hears.apply (h : log.Hears q) (hq : q < log.queues.size) {op : Operation}
    (hkeeps : op.keeps q = true) : (log.apply op).Hears q := by
  obtain ⟨hopen, hone⟩ := h
  constructor
  · rw [closed_apply, hopen]
    cases op <;> simp_all [Operation.keeps]
  · rw [count_apply hq, hone, if_neg]
    rintro rfl
    simp [Operation.keeps] at hkeeps

theorem Hears.added (h : log.Hears q) (hq : q < log.queues.size) (op : Operation) :
    log.added q op = op.item?.toList := by
  rw [added_eq hq, h.1, h.2]
  cases op.item? <;> simp

theorem window_cons_of_keeps {op : Operation} (hkeeps : op.keeps q = true) (ops : List Operation) :
    window q (op :: ops) = op.item?.toList ++ window q ops := by
  unfold window
  rw [List.takeWhile_cons_of_pos hkeeps, List.dropWhile_cons_of_pos hkeeps]
  cases op with
  | close => cases hkeeps
  | _ => simp [List.filterMap_cons, Operation.line?, Operation.item?]

theorem window_cons_of_not_keeps {op : Operation} (hkeeps : op.keeps q = false)
    (ops : List Operation) : window q (op :: ops) = if op = .close then [.ended] else [] := by
  unfold window
  rw [List.takeWhile_cons_of_neg (by simp [hkeeps]), List.dropWhile_cons_of_neg (by simp [hkeeps])]
  simp

theorem Hears.delivered (h : log.Hears q) (hq : q < log.queues.size) (ops : List Operation) :
    delivered q log ops = window q ops := by
  induction ops generalizing log with
  | nil => rfl
  | cons op ops ih =>
    have hnext : q < (log.apply op).queues.size := Nat.lt_of_lt_of_le hq (size_apply_le op)
    rw [OutputLog.delivered, h.added hq]
    by_cases hkeeps : op.keeps q = true
    · rw [window_cons_of_keeps hkeeps, ih (h.apply hq hkeeps) hnext]
    · -- the subscription ends here, by the close or by itself
      have hdeaf : (log.apply op).Deaf q := by
        cases op with
        | close => exact .inl (by rw [closed_apply]; simp)
        | unsubscribe p =>
          obtain rfl : p = q := by simpa [Operation.keeps] using hkeeps
          exact .inr (by rw [count_apply hq, if_pos rfl, h.2])
        | _ => exact absurd rfl hkeeps
      rw [window_cons_of_not_keeps (by simpa using hkeeps), hdeaf.delivered hnext, List.append_nil]
      cases op with
      | close => rfl
      | unsubscribe p => rfl
      | _ => exact absurd rfl hkeeps

theorem delivered_subscribe (h : log.Bounded) (ops : List Operation) :
    delivered log.subscribe.2 log (.subscribe :: ops) =
      if log.closed then [.ended] else window log.subscribe.2 ops := by
  have hq : log.subscribe.2 < (log.apply .subscribe).queues.size := by simp [apply]
  have hnew : log.subscribers.count log.queues.size = 0 :=
    List.count_eq_zero.mpr fun hm => Nat.lt_irrefl _ (h _ hm)
  have hempty : log.queue log.subscribe.2 = #[] := queue_of_size_le (by simp)
  rw [delivered, added, hempty]
  by_cases hc : log.closed = true
  · have hdeaf : (log.apply .subscribe).Deaf log.subscribe.2 := .inl (by rw [closed_apply, hc]; rfl)
    rw [hdeaf.delivered hq, if_pos hc]
    simp [apply, subscribe, hc, queue]
  · have hopen : log.closed = false := by simpa using hc
    have hhears : (log.apply .subscribe).Hears log.subscribe.2 :=
      ⟨by rw [closed_apply, hopen]; rfl, by simp [apply, subscribe, hopen, hnew]⟩
    rw [hhears.delivered hq, if_neg hc]
    simp [apply, subscribe, hopen, queue]

theorem lines_applyAll (hopen : log.closed = false) {ops : List Operation}
    (hclose : .close ∉ ops) :
    (log.applyAll ops).lines.toList = log.lines.toList ++ ops.filterMap Operation.line? := by
  induction ops generalizing log with
  | nil => simp [applyAll]
  | cons op ops ih =>
    obtain ⟨hne, hrest⟩ : op ≠ .close ∧ .close ∉ ops := by
      simpa [eq_comm, not_or] using hclose
    have hnext : (log.apply op).closed = false := by rw [closed_apply, hopen]; simpa using hne
    rw [applyAll_cons, ih hnext hrest]
    cases op with
    | close => exact absurd rfl hne
    | append line => simp [apply_append, hopen, Operation.line?]
    | _ => simp [apply, List.filterMap_cons, Operation.line?]

theorem window_eq_heard (q : QueueId) (ops : List Operation) :
    window q ops = heard (ops.filterMap (Operation.tiding? q)) := by
  induction ops with
  | nil => rfl
  | cons op ops ih =>
    cases op with
    | append line =>
      rw [window_cons_of_keeps rfl, ih]
      rfl
    | close =>
      rw [window_cons_of_not_keeps rfl]
      rfl
    | subscribe =>
      rw [window_cons_of_keeps rfl, ih]
      rfl
    | unsubscribe p =>
      by_cases hp : p = q
      · rw [window_cons_of_not_keeps (by simp [Operation.keeps, hp])]
        simp [Operation.tiding?, hp, heard]
      · rw [window_cons_of_keeps (by simp [Operation.keeps, hp]), ih]
        simp [Operation.tiding?, hp, Operation.item?]
    | drain p =>
      rw [window_cons_of_keeps rfl, ih]
      rfl

theorem eq_nil_of_window {ops : List Operation} {first second : List Item}
    (h : window q ops = first ++ .ended :: second) : second = [] := by
  have hline : Item.ended ∉
      ((ops.takeWhile (Operation.keeps q)).filterMap Operation.line?).map Item.line := by simp
  unfold window at h
  split at h
  · rcases List.append_eq_append_iff.mp h with ⟨middle, hfirst, hlast⟩ | ⟨middle, hlines, -⟩
    · rcases middle with _ | ⟨item, middle⟩
      · exact (List.cons.inj hlast).2.symm
      · have hlength := congrArg List.length hlast
        simp only [List.length_cons, List.length_nil, List.length_append] at hlength
        omega
    · rcases middle with _ | ⟨item, middle⟩
      · simp_all
      · simp_all
  · rw [List.append_nil] at h
    rw [h] at hline
    simp at hline

end

/-- What has ever been put into a queue is decided by when it was made. If that was after the close
it is the end mark alone; otherwise it is each line that was added from then on until the queue was
unsubscribed or the log closed, and the end mark in the second case. The end mark is the last item,
and comes once. What else is done with queues has no part in it. All that was ever put in has been
taken out, in this order, or is still there; a drain takes out all that is there and leaves the
queue empty, and the others as they are. So the drains up to the last one come to all that was put
in. -/
theorem deliveries_of_queue (before after : List Operation) :
    let log := applyAll {} before
    let q := log.subscribe.2
    let ops := before ++ .subscribe :: after
    let span := after.takeWhile (Operation.keeps q)
    let items := delivered q {} ops
    items = (if before.contains .close then [.ended] else
      (span.filterMap Operation.line?).map .line ++
        if (after.dropWhile (Operation.keeps q)).head? = some .close then [.ended] else []) ∧
    (before.contains .close = false → (log.applyAll (.subscribe :: span)).lines.toList =
      log.lines.toList ++ span.filterMap Operation.line?) ∧
    (∀ first second, items = first ++ .ended :: second → .ended ∉ first ∧ second = []) ∧
    (∀ earlier later, earlier.contains .close = before.contains .close →
      later.filterMap (Operation.tiding? (applyAll {} earlier).subscribe.2) =
        after.filterMap (Operation.tiding? q) →
      delivered (applyAll {} earlier).subscribe.2 {} (earlier ++ .subscribe :: later) = items) ∧
    let last := applyAll {} ops
    drained q {} ops ++ (last.queue q).toList = items ∧
    (last.drain q).2 = last.queue q ∧ (last.drain q).1.queue q = #[] ∧
    (∀ p, p ≠ q → (last.drain q).1.queue p = last.queue p) ∧
    drained q {} (ops ++ [.drain q]) = items := by
  intro log q ops span items
  have hempty : Bounded {} := fun q hq => by cases hq
  -- all is put into a queue from its subscription on
  have hitems : ∀ earlier later,
      delivered (applyAll {} earlier).subscribe.2 {} (earlier ++ .subscribe :: later) =
        if earlier.contains .close then [.ended]
        else window (applyAll {} earlier).subscribe.2 later := by
    intro earlier later
    have hclosed : (applyAll {} earlier).closed = earlier.contains .close := closed_applyAll earlier
    have hnew : (applyAll {} earlier).queues.size ≤ (applyAll {} earlier).subscribe.2 := by simp
    rw [delivered_append, delivered_of_size_le hnew, List.nil_append,
      delivered_subscribe (bounded_applyAll hempty earlier), hclosed]
  have hall : items = if before.contains .close then [.ended] else window q after :=
    hitems before after
  have hbalance : drained q {} ops ++ ((applyAll {} ops).queue q).toList = items := by
    have hbalance := queue_append_delivered {} q ops
    rw [queue_of_size_le (Nat.zero_le q)] at hbalance
    exact hbalance.symm
  have hmade : q < (applyAll {} ops).queues.size := by
    have hlast : applyAll {} ops = (log.apply .subscribe).applyAll after := List.foldl_append
    have hnew : q < (log.apply .subscribe).queues.size := by simp [q, apply]
    rw [hlast]
    exact Nat.lt_of_lt_of_le hnew (size_le_applyAll after)
  refine ⟨hall, fun hopen => ?_, fun first second hsplit => ?_,
    fun earlier later hclose htidings => ?_,
    hbalance, rfl, queue_drain_self hmade, fun p hp => queue_drain_of_ne hp.symm, ?_⟩
  · have hclosed : log.closed = false := (closed_applyAll before).trans hopen
    have hspan : .close ∉ Operation.subscribe :: span := by
      intro hmem
      rcases List.mem_cons.mp hmem with hmem | hmem
      · cases hmem
      · have hkeeps := List.all_eq_true.mp List.all_takeWhile _ hmem
        cases hkeeps
    rw [lines_applyAll hclosed hspan]
    rfl
  · rw [hall] at hsplit
    split at hsplit
    · rcases first with _ | ⟨item, first⟩
      · exact ⟨List.not_mem_nil, (List.cons.inj hsplit).2.symm⟩
      · have hlength := congrArg List.length hsplit
        simp at hlength
    · have hlast : second = [] := eq_nil_of_window hsplit
      refine ⟨fun hmem => ?_, hlast⟩
      obtain ⟨start, rest, rfl⟩ := List.append_of_mem hmem
      have htwice : window q after = start ++ .ended :: (rest ++ .ended :: second) := by
        simpa using hsplit
      simpa using eq_nil_of_window htwice
  · rw [hall, hitems, hclose, window_eq_heard, window_eq_heard, htidings]
  · rw [drained_append, ← hbalance]
    simp [drained, taken, drain]

example :
  delivered 0 {} [.subscribe, .append "a", .drain 0, .subscribe, .append "b", .unsubscribe 1,
    .close, .close, .append "c"] = [.line "a", .line "b", .ended] := by decide

end Overseer.OutputLog
