import Overseer.Proofs.Listening.WaitOutcomes

/-!
# Subscribers

A wait is subscribed for as long as it is pending, whichever way it ends. So the subscribers of a
log are the queues of the pending waits, in the order in which these have begun (`Subscribed`), and
a wait that has ended has left nothing behind.
-/

namespace Overseer

namespace Timeline

variable {σ α β : Type}

theorem activities_push (t : Timeline σ α β) (task : Task α β) :
    (t.push task).1.activities = t.activities ++ task.activity?.toList := by
  cases h : task.activity? <;> simp [activities, push, h]

/-- A task that is replaced gives way to the new one among the activities. -/
theorem activities_replace {t : Timeline σ α β} {id : TaskId} {old : Task α β}
    (h : t.tasks[id]? = some old) (state : σ) (new : Task α β) :
    ∃ xs ys, t.activities = xs ++ old.activity?.toList ++ ys ∧
      ({ t with state, tasks := t.tasks.setIfInBounds id new } : Timeline σ α β).activities =
        xs ++ new.activity?.toList ++ ys := by
  obtain ⟨hid, hold⟩ := Array.getElem?_eq_some_iff.mp h
  have hlength : id < t.tasks.toList.length := by simpa using hid
  have hget : t.tasks.toList[id] = old := by simpa using hold
  have hfilter : ∀ (xs ys : List (Task α β)) (task : Task α β),
      (xs ++ task :: ys).filterMap Task.activity? =
        xs.filterMap Task.activity? ++ task.activity?.toList ++ ys.filterMap Task.activity? := by
    intro xs ys task
    cases ht : task.activity? <;> simp [ht]
  refine ⟨(t.tasks.toList.take id).filterMap Task.activity?,
    (t.tasks.toList.drop (id + 1)).filterMap Task.activity?, ?_, ?_⟩
  · rw [← hfilter, ← hget, List.getElem_cons_drop, List.take_append_drop]
    rfl
  · rw [← hfilter, activities, Array.toList_setIfInBounds, List.set_eq_take_append_cons_drop,
      if_pos hlength]

/-- The activities stay as they are when a task gives way to one with the same activity. -/
theorem activities_replace_same {t : Timeline σ α β} {id : TaskId} {old new : Task α β}
    (h : t.tasks[id]? = some old) (hsame : new.activity? = old.activity?) (state : σ) :
    ({ t with state, tasks := t.tasks.setIfInBounds id new } : Timeline σ α β).activities =
      t.activities := by
  obtain ⟨xs, ys, hbefore, hafter⟩ := activities_replace h state new
  rw [hafter, hbefore, hsame]

/-- An errand without an activity leaves the state alone and becomes none. -/
theorem pollErrand_idle {κ : Type} (m : Machinery σ κ α β) (t : Timeline σ α β) (errand : Errand α)
    (h : (.pending errand : Task α β).activity? = none) :
    (pollErrand m t errand).1 = t.state ∧ (pollErrand m t errand).2.activity? = none := by
  cases errand with
  | act a => cases h
  | pause moment =>
    rw [pollErrand]
    split <;> exact ⟨rfl, rfl⟩
  | join other =>
    rw [pollErrand]
    split <;> exact ⟨rfl, rfl⟩

end Timeline

namespace OutputLog

variable {log : OutputLog}

theorem subscribers_append {after : OutputLog} {line : String} (h : log.append? line = some after) :
    after.subscribers = log.subscribers := by
  obtain ⟨-, rfl⟩ := append?_eq_some h
  rfl

theorem subscribers_close (log : OutputLog) : log.close.1.subscribers = log.subscribers := by
  rw [close_eq]
  split <;> rfl

theorem subscribers_subscribe (ho : log.closed = false) :
    log.subscribe.1.subscribers = log.subscribers ++ [log.queues.size] := by
  simp [subscribe, ho]

theorem erase_subscribe (h : log.Bounded) :
    log.subscribe.1.subscribers.erase log.queues.size = log.subscribers := by
  have hnew : log.queues.size ∉ log.subscribers := fun hm => Nat.lt_irrefl _ (h _ hm)
  cases ho : log.closed with
  | true => simpa [subscribe, ho] using List.erase_of_not_mem hnew
  | false =>
    rw [subscribers_subscribe ho, List.erase_append_right _ hnew, List.erase_cons_head,
      List.append_nil]

end OutputLog

namespace LineWait

theorem subscribers_poll (w : LineWait) (now : Instant) (log : OutputLog) :
    (w.poll now log).1.subscribers = match (w.poll now log).2.2 with
      | .pending _ => log.subscribers
      | .done _ => log.subscribers.erase w.queue := by
  simp only [poll]
  split
  · rfl
  · split <;> rfl

end LineWait

namespace Listening

open OutputLog Timeline

def pendingQueues (t : Listeners) : List QueueId := t.activities.map (·.queue)

theorem mem_pendingQueues {t : Listeners} {q : QueueId} :
    q ∈ pendingQueues t ↔
      ∃ (id : TaskId) (w : LineWait), t.tasks[id]? = some (.pending (.act w)) ∧ w.queue = q := by
  have hactivity : ∀ (task : Task LineWait Result) (w : LineWait),
      task.activity? = some w ↔ task = .pending (.act w) := by
    intro task w
    rcases task with (_ | _ | _) | _ <;> simp [Task.activity?]
  simp only [pendingQueues, activities, List.mem_map, List.mem_filterMap, hactivity]
  constructor
  · rintro ⟨w, ⟨task, htask, rfl⟩, rfl⟩
    obtain ⟨id, hid⟩ := List.mem_iff_getElem?.mp htask
    exact ⟨id, w, by simpa using hid, rfl⟩
  · rintro ⟨id, w, hw, rfl⟩
    exact ⟨w, ⟨_, List.mem_iff_getElem?.mpr ⟨id, by simpa using hw⟩, rfl⟩, rfl⟩

theorem subscribers_take (s : Listening) (feed : Feed) :
    (s.take feed).log.subscribers = s.log.subscribers := by
  cases feed with
  | append line =>
    simp only [take]
    cases ha : s.log.append? line with
    | some after => exact subscribers_append ha
    | none => rfl
  | close => exact subscribers_close s.log

theorem subscribers_advance (s : Listening) (moment : Instant) :
    (s.advance moment).log.subscribers = s.log.subscribers := by
  have hall : ∀ (due : List (Instant × Feed)) (u : Listening),
      (due.foldl (fun s entry => s.take entry.2) u).log.subscribers = u.log.subscribers := by
    intro due
    induction due with
    | nil => exact fun u => rfl
    | cons entry due ih => exact fun u => (ih _).trans (subscribers_take u entry.2)
  exact hall _ _

theorem subscribers_start {s : Listening} (h : s.log.Bounded) (command : Command) :
    (start command s).1.log.subscribers = s.log.subscribers ++
      match (start command s).2 with
      | .pending w => [w.queue]
      | .done _ => [] := by
  cases command with
  | wait pattern limit =>
    cases hc : pattern.compile with
    | error failure => simp [start, hc]
    | ok compiled =>
      obtain ⟨w, hw⟩ : ∃ w,
        w = (LineWait.start compiled (limit.getD s.usualLimit) s.now s.log).2 := ⟨_, rfl⟩
      have hqueue : w.queue = s.log.queues.size := hw ▸ LineWait.queue_start _ _ _ _
      have hprogress := progress_start_wait h hc hw
      have hsubscribers := LineWait.subscribers_poll w s.now s.log.subscribe.1
      have hpolled : (w.poll s.now s.log.subscribe.1).2.2 = _ :=
        LineWait.poll_eq_decision (backlog_start h hw)
      rw [hprogress, start_wait hc hw]
      rw [decision_subscribe] at hpolled
      refine hsubscribers.trans ?_
      rw [hpolled]
      cases hd : w.decision s.now s.log.lines.size s.log with
      | some result =>
        dsimp only
        rw [hqueue, List.append_nil]
        exact erase_subscribe h
      | none =>
        dsimp only
        rw [hqueue]
        exact subscribers_subscribe (LineWait.decision_eq_none_iff.mp hd).2.1
  | append line =>
    simp only [start]
    cases ha : s.log.append? line with
    | some after => exact (subscribers_append ha).trans (List.append_nil _).symm
    | none => exact (List.append_nil _).symm
  | close => exact (subscribers_close s.log).trans (List.append_nil _).symm
  | state => exact (List.append_nil _).symm

/-- The subscribers of the log are the waits under way; one that has begun later has a newer
queue. -/
structure Subscribed (t : Listeners) : Prop where
  tidy : Tidy t
  subscribers : t.state.log.subscribers = pendingQueues t
  ordered : (pendingQueues t).Pairwise (· < ·)

namespace Subscribed

variable {t u : Listeners}

theorem nodup (h : Subscribed t) : (pendingQueues t).Nodup :=
  h.ordered.imp fun hlt => Nat.ne_of_lt hlt

/-- Nothing changes where the same waits are under way and the same queues are subscribed. -/
theorem congr (h : Subscribed t) (htidy : Tidy u) (hactivities : u.activities = t.activities)
    (hsubscribers : u.state.log.subscribers = t.state.log.subscribers) : Subscribed u := by
  have hqueues : pendingQueues u = pendingQueues t := by rw [pendingQueues, hactivities]; rfl
  exact ⟨htidy, by rw [hsubscribers, hqueues, h.subscribers], hqueues ▸ h.ordered⟩

/-- Nothing changes when a task gives way to one that is under way with the same wait. -/
theorem replaced {id : TaskId} {old new : Task LineWait Result} (h : Subscribed t)
    (hold : t.tasks[id]? = some old) (hsame : new.activity? = old.activity?) (htidy : Tidy u)
    (htasks : u.tasks = t.tasks.setIfInBounds id new)
    (hsubscribers : u.state.log.subscribers = t.state.log.subscribers) : Subscribed u := by
  refine h.congr htidy ?_ hsubscribers
  rw [activities, htasks]
  exact activities_replace_same hold hsame u.state

theorem dropped {id : TaskId} {w : LineWait} {task : Task LineWait Result} (h : Subscribed t)
    (hw : t.tasks[id]? = some (.pending (.act w))) (hidle : task.activity? = none)
    (htidy : Tidy u) (htasks : u.tasks = t.tasks.setIfInBounds id task)
    (hsubscribers : u.state.log.subscribers = t.state.log.subscribers.erase w.queue) :
    Subscribed u := by
  obtain ⟨xs, ys, hbefore, hafter⟩ := activities_replace hw u.state task
  have hqueues : pendingQueues u = (xs ++ ys).map (·.queue) := by
    rw [pendingQueues, activities, htasks]
    refine congrArg (List.map _) (hafter.trans ?_)
    rw [hidle, Option.toList_none, List.append_nil]
  have hall : pendingQueues t = xs.map (·.queue) ++ w.queue :: ys.map (·.queue) := by
    rw [pendingQueues, hbefore]
    simp [Task.activity?]
  have hnotin : w.queue ∉ xs.map (·.queue) := by
    have hnodup := h.nodup
    rw [hall] at hnodup
    exact fun hmem => (List.nodup_append.mp hnodup).2.2 _ hmem _ List.mem_cons_self rfl
  refine ⟨htidy, ?_, ?_⟩
  · rw [hsubscribers, h.subscribers, hall, List.erase_append_right _ hnotin, List.erase_cons_head,
      hqueues, List.map_append]
  · have hsublist : (pendingQueues u).Sublist (pendingQueues t) := by
      rw [hqueues, hall, List.map_append]
      exact List.Sublist.append_left (List.sublist_cons_self _ _) _
    exact h.ordered.sublist hsublist

theorem joined {w : LineWait} {task : Task LineWait Result} {s : Listening} (h : Subscribed t)
    (htask : task.activity? = some w) (hnew : w.queue = t.state.log.queues.size)
    (htidy : Tidy ({ t with state := s }.push task).1)
    (hsubscribers : s.log.subscribers = t.state.log.subscribers ++ [w.queue]) :
    Subscribed ({ t with state := s }.push task).1 := by
  have hqueues : pendingQueues ({ t with state := s }.push task).1 =
      pendingQueues t ++ [w.queue] := by
    rw [pendingQueues, activities_push, htask, List.map_append]
    rfl
  refine ⟨htidy, ?_, ?_⟩
  · rw [hqueues, ← h.subscribers]
    exact hsubscribers
  · rw [hqueues]
    refine List.pairwise_append.mpr ⟨h.ordered, List.pairwise_singleton _ _, ?_⟩
    intro q hq other hother
    obtain ⟨id, v, hv, rfl⟩ := mem_pendingQueues.mp hq
    rw [List.mem_singleton.mp hother, hnew]
    exact h.tidy.waits id v hv

theorem push {task : Task LineWait Result} {s : Listening} (h : Subscribed t)
    (hidle : task.activity? = none) (htidy : Tidy ({ t with state := s }.push task).1)
    (hsubscribers : s.log.subscribers = t.state.log.subscribers) :
    Subscribed ({ t with state := s }.push task).1 := by
  refine h.congr htidy ?_ hsubscribers
  rw [activities_push, hidle, Option.toList_none, List.append_nil]
  rfl

theorem cancelTask (h : Subscribed t) (id : TaskId) : Subscribed (cancelTask machinery t id).1 := by
  have htidy := h.tidy.cancelTask id
  revert htidy
  have hover : (.ended t.state.now .cancelled : Task LineWait Result).activity? = none := rfl
  unfold Timeline.cancelTask
  split
  next errand ht =>
    intro htidy
    cases errand with
    | act w => exact h.dropped ht hover htidy rfl rfl
    | pause moment => exact h.replaced ht hover htidy rfl rfl
    | join other => exact h.replaced ht hover htidy rfl rfl
  · exact fun htidy => h.congr htidy rfl rfl

theorem pollTask (h : Subscribed t) (id : TaskId) : Subscribed (pollTask machinery t id) := by
  have htidy := h.tidy.pollTask id
  revert htidy
  unfold Timeline.pollTask
  split
  next errand ht =>
    intro htidy
    cases errand with
    | act w =>
      have hsubscribers : (poll w t.state).1.log.subscribers = _ :=
        LineWait.subscribers_poll w t.state.now t.state.log
      have hprogress : (poll w t.state).2 =
        Progress.map (fun w => w) (·.map .found) (w.poll t.state.now t.state.log).2.2 := rfl
      cases hd : (w.poll t.state.now t.state.log).2.2 with
      | done result =>
        rw [hd] at hsubscribers hprogress
        refine h.dropped ht ?_ htidy rfl hsubscribers
        change (Task.ofProgress _ (poll w t.state).2).activity? = none
        rw [hprogress]
        rfl
      | pending rest =>
        obtain ⟨rfl, -, -⟩ := LineWait.pending_poll hd
        rw [hd] at hsubscribers hprogress
        refine h.replaced ht ?_ htidy rfl hsubscribers
        change (Task.ofProgress _ (poll rest t.state).2).activity? = _
        rw [hprogress]
        rfl
    | pause moment =>
      obtain ⟨hs, hidle⟩ := pollErrand_idle machinery t (.pause moment) rfl
      exact h.replaced ht hidle htidy rfl (congrArg (·.log.subscribers) hs)
    | join other =>
      obtain ⟨hs, hidle⟩ := pollErrand_idle machinery t (.join other) rfl
      exact h.replaced ht hidle htidy rfl (congrArg (·.log.subscribers) hs)
  · exact fun htidy => h.congr htidy rfl rfl

theorem launch_act (h : Subscribed t) (command : Command) :
    Subscribed (launch machinery t (.act command)) := by
  have htidy := h.tidy.launch (.act command)
  have hsubscribers := subscribers_start h.tidy.bounded command
  have hlaunch : launch machinery t (.act command) =
    ({ t with state := (start command t.state).1 }.push
      (.ofProgress (start command t.state).1.now (start command t.state).2)).1 := rfl
  rw [hlaunch] at htidy ⊢
  cases hp : (start command t.state).2 with
  | done result =>
    rw [hp] at hsubscribers htidy
    exact h.push rfl htidy (hsubscribers.trans (List.append_nil _))
  | pending w =>
    rw [hp] at hsubscribers htidy
    exact h.joined rfl (pending_start hp).1 htidy hsubscribers

theorem launch (h : Subscribed t) (step : Step Command) : Subscribed (launch machinery t step) :=
  launch_induction (P := Subscribed)
    (fun t task hidle h => by
      have htidy : Tidy (t.push task).1 :=
        ⟨h.tidy.bounded, fun id w hw => h.tidy.waits id w (act_push_idle hidle hw), h.tidy.sorted,
          h.tidy.ahead⟩
      exact h.push hidle htidy rfl)
    (fun _ _ h => h.congr ⟨h.tidy.bounded, h.tidy.waits, h.tidy.sorted, h.tidy.ahead⟩ rfl rfl)
    (fun _ id h => h.cancelTask id) (fun _ command h => h.launch_act command) h step

theorem advance (h : Subscribed t) (moment : Instant) :
    Subscribed { t with state := machinery.advance t.state moment } :=
  h.congr (h.tidy.advance moment) rfl (subscribers_advance t.state moment)

theorem settle (h : Subscribed t) : Subscribed (settle machinery t) :=
  settle_induction (P := Subscribed) (fun _ h => h) (fun _ h => h) (fun _ id h => h.pollTask id) h

theorem later (h : Subscribed t) (hlater : Later machinery t u) : Subscribed u :=
  Later.induction (P := Subscribed) (fun _ step h => h.launch step)
    (fun _ moment h => h.advance moment) (fun _ h => h) (fun _ h => h)
    (fun _ id h => h.pollTask id) h hlater

theorem ofFeed (usualLimit : Option Number.Seconds) (feed : List (Instant × Feed)) :
    Subscribed { state := Listening.ofFeed usualLimit feed } :=
  ⟨.ofFeed usualLimit feed, subscribers_advance _ 0, .nil⟩

end Subscribed

end Listening

end Overseer
