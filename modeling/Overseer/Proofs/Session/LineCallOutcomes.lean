import Overseer.Proofs.Listening.WaitOutcomes
import Overseer.Proofs.Session.LineCalls
import Overseer.Proofs.Supervision.Snapshots
import Overseer.Proofs.Teardown.Conductors

/-!
# What becomes of a call for a line

A call that waits for a line follows the log of its process (`OutputLog.Followed`), so when
everything has settled it has come to what the log decides (`Session.Attended.settle`). What comes
of it is told by the course of that log alone since the call, whatever else goes on in the session
(`Session.Expecting.play`). -/

namespace Overseer

open Pattern

namespace OutputLog

variable {a b c log after : OutputLog} {pattern : Compiled} {q : QueueId} {since : Nat}

theorem Extends.lines_eq (h : Extends a b) (hle : b.lines.size ≤ a.lines.size) :
    b.lines = a.lines :=
  (Array.toList_inj.mp (h.kept.eq_of_length_le (by simpa using hle))).symm

/-- What lies between two logs with the same record has that record too. -/
theorem Extends.between (hab : Extends a b) (hbc : Extends b c) (hl : c.lines = a.lines)
    (hc : c.closed = a.closed) : c.lines = b.lines ∧ c.closed = b.closed := by
  constructor
  · refine hbc.lines_eq ?_
    rw [hl]
    simpa using hab.kept.length_le
  · cases hb : b.closed with
    | true => exact (hbc.final hb).1
    | false =>
      rw [hc]
      cases ha : a.closed with
      | false => rfl
      | true => exact (hab.final ha).1.symm.trans hb

/-- A queue whose lines have been heard from some line on, up to now without a match. -/
structure Followed (pattern : Compiled) (q : QueueId) (since : Nat) (log : OutputLog) : Prop where
  heard : ∃ heard, since ≤ heard ∧ Backlog log q heard ∧
    ∀ line ∈ (log.lines.toList.take heard).drop since, pattern.search line = none

theorem Followed.of_backlog (h : Backlog log q since) : Followed pattern q since log := by
  refine ⟨since, Nat.le_refl _, h, fun line hl => ?_⟩
  rw [List.drop_eq_nil_of_le (List.length_take_le _ _)] at hl
  cases hl

/-- What is done with other queues, and lines that come, are not heard at once. -/
theorem Followed.use (h : Followed pattern q since log) (hu : Use (· ≠ q) log after) :
    Followed pattern q since after := by
  obtain ⟨heard, hle, hbacklog, hmissed⟩ := h.heard
  refine ⟨heard, hle, hu.backlog hbacklog, fun line hl => hmissed line ?_⟩
  obtain ⟨more, hmore⟩ := hu.extension.kept
  rwa [← hmore, List.take_append_of_le_length (by simpa using hbacklog.heard_le)] at hl

/-- When a queue is empty, all lines have been heard, and the log is open. -/
theorem Followed.of_empty (h : Followed pattern q since log) (hq : log.queue q = #[]) :
    Backlog log q log.lines.size ∧ log.closed = false ∧
      ∀ line ∈ log.lines.toList.drop since, pattern.search line = none := by
  obtain ⟨heard, -, hbacklog, hmissed⟩ := h.heard
  have hitems := hbacklog.items
  rw [hq] at hitems
  obtain ⟨hrest, hend⟩ := List.append_eq_nil_iff.mp hitems.symm
  have hall : log.lines.size ≤ heard := by
    simpa using List.drop_eq_nil_iff.mp (List.map_eq_nil_iff.mp hrest)
  obtain rfl := Nat.le_antisymm hbacklog.heard_le hall
  refine ⟨hbacklog, by simpa using hend, fun line hl => hmissed line ?_⟩
  rwa [List.take_of_length_le (by simp)]

end OutputLog

namespace LineWait

open OutputLog

variable {w : LineWait} {log after : OutputLog} {since : Nat} {now : Instant} {result : Result}

/-- A wait that goes on has followed its queue up to then, and otherwise it has come to what the log
decides. -/
theorem poll_of_followed (h : Followed w.pattern w.queue since log) (now : Instant) :
    w.decision now since log = none ∧ (w.poll now log).2.2 = .pending w ∧
        Followed w.pattern w.queue since (w.poll now log).1 ∨
      ∃ result, w.decision now since log = some result ∧ (w.poll now log).2.2 = .done result := by
  obtain ⟨heard, hle, hbacklog, hmissed⟩ := h.heard
  have hsize : heard ≤ log.lines.toList.length := by simpa using hbacklog.heard_le
  have hdecision : w.decision now heard log = w.decision now since log := by
    have hsplit : log.lines.toList.drop since =
        (log.lines.toList.take heard).drop since ++ log.lines.toList.drop heard := by
      rw [← List.drop_append_of_le_length (by simpa using ⟨hle, Nat.le_trans hle hsize⟩),
        List.take_append_drop]
    rw [LineWait.decision, LineWait.decision, hsplit, List.findSome?_append,
      List.findSome?_eq_none_iff.mpr hmissed, Option.none_or]
  have hpoll : (w.poll now log).2.2 = _ := poll_eq_decision hbacklog
  rw [hdecision] at hpoll
  cases hd : w.decision now since log with
  | some result =>
    rw [hd] at hpoll
    exact .inr ⟨result, rfl, hpoll⟩
  | none =>
    rw [hd] at hpoll
    refine .inl ⟨rfl, hpoll, log.lines.size, Nat.le_trans hle hbacklog.heard_le,
      backlog_poll_self hbacklog (hdecision.trans hd), fun line hl => ?_⟩
    rw [lines_poll, List.take_of_length_le (by simp)] at hl
    exact (decision_eq_none_iff.mp hd).1 line hl

/-- What a log decides it decides when more has come, if nothing comes at the deadline. -/
theorem decision_of_extends (hext : Extends log after)
    (hstill : Instant.reached now w.deadline = true →
      after.lines = log.lines ∧ after.closed = log.closed)
    (h : w.decision now since log = some result) : w.decision now since after = some result := by
  have hsame : after.lines = log.lines ∧ after.closed = log.closed →
      w.decision now since after = some result :=
    fun hrecord => (decision_congr hrecord.1 hrecord.2).trans h
  cases hf : (log.lines.toList.drop since).findSome? w.pattern.search with
  | some found =>
    obtain ⟨more, hmore⟩ := hext.kept
    rw [decision, hf] at h
    rw [decision, ← hmore, List.drop_append, List.findSome?_append, hf]
    exact h
  | none =>
    cases hc : log.closed with
    | true =>
      obtain ⟨hclosed, hlines⟩ := hext.final hc
      exact hsame ⟨hlines, hclosed.trans hc.symm⟩
    | false =>
      cases hr : Instant.reached now w.deadline with
      | true => exact hsame (hstill hr)
      | false =>
        rw [decision, hf, hc, hr] at h
        cases h

end LineWait

/-- What comes at a deadline does not come where the deadline is avoided. -/
theorem Listening.Course.still_of_avoids {c : Course} {deadline : Option Instant}
    {before after : Listening} (hext : OutputLog.Extends before.log after.log)
    (hopen : before.log.closed = false) (hc : c.closing = none)
    (hdeadline : ∀ time, deadline = some time → after.now ≤ time)
    (havoid : (c.observe before after).Avoids deadline)
    (hr : Instant.reached after.now deadline = true) :
    after.log.lines = before.log.lines ∧ after.log.closed = before.log.closed := by
  obtain ⟨time, ht, hle⟩ := Instant.reached_eq_true_iff.mp hr
  obtain rfl : time = after.now := Nat.le_antisymm hle (hdeadline time ht)
  obtain ⟨hlines, hclosing⟩ := havoid after.now ht
  constructor
  · have hnews : after.log.lines.toList.drop before.log.lines.size = [] := by
      refine List.eq_nil_iff_forall_not_mem.mpr fun line hl => ?_
      exact hlines (after.now, line) (List.mem_append_right _ (List.mem_map_of_mem hl)) rfl
    exact hext.lines_eq (by simpa using List.drop_eq_nil_iff.mp hnews)
  · rw [hopen]
    cases ha : after.log.closed with
    | false => rfl
    | true =>
      rw [observe, hc, ha] at hclosing
      exact absurd rfl hclosing

/-- A wait on an open log that has come to its end when it begins has no time left, and nothing else
has come by then. -/
theorem Listening.Course.outcome?_of_spent {w : LineWait} {result : LineWait.Result}
    {before after : Listening} (hext : OutputLog.Extends before.log after.log)
    (hopen : before.log.closed = false) (hnow : after.now = before.now)
    (hdeadline : ∀ time, w.deadline = some time → after.now ≤ time)
    (havoid : (({} : Course).observe before after).Avoids w.deadline)
    (hd : w.decision before.now before.log.lines.size before.log = some result) :
    (({} : Course).observe before after).outcome? w before.log.lines.toList after.now =
      some ⟨before.now, .result (result.map .found)⟩ := by
  have hreached : Instant.reached before.now w.deadline = true := by
    have hbegin := decision_begin w before
    rw [hd, hopen, if_neg Bool.false_ne_true] at hbegin
    by_contra hr
    rw [if_neg hr] at hbegin
    cases hbegin
  have hrecord : before.log.lines.toList =
      before.log.lines.toList ++ (({} : Course).lines.map (·.2)) := (List.append_nil _).symm
  obtain ⟨hlines, hclosed⟩ :=
    still_of_avoids hext hopen rfl hdeadline havoid (hnow.symm ▸ hreached)
  rw [outcome?_eq_decision hext hrecord nofun rfl nofun hdeadline havoid, hnow,
    LineWait.decision_congr hlines hclosed, hd]
  rfl

namespace Session

open OutputLog Timeline World

def hearing (s : Session) (id : ProcessId) : Listening := { now := s.now, log := s.fleet.log id }

theorem hearing_now (s : Session) (id : ProcessId) : (s.hearing id).now = s.now := rfl

theorem hearing_log (s : Session) (id : ProcessId) : (s.hearing id).log = s.fleet.log id := rfl

def course (id : ProcessId) (t : Timeline Session Activity Result) (c : Listening.Course) :
    List (Move Command) → Listening.Course
  | [] => c
  | x :: moves =>
    course id (move machinery t x)
      (c.observe (t.state.hearing id) ((move machinery t x).state.hearing id)) moves

variable {t u : Timeline Session Activity Result} {task other : TaskId} {id : ProcessId}
  {report : LineReport} {w : LineWait} {since : Nat} {step : Step Command}

theorem extends_log (h : Later machinery t u) (id : ProcessId) :
    Extends (t.state.fleet.log id) (u.state.fleet.log id) := by
  cases hp : t.state.fleet.process? id with
  | some p =>
    obtain ⟨q, hq, hext⟩ := Supervised.enduring_extends.later h hp
    rw [Fleet.log_eq hp, Fleet.log_eq hq]
    exact hext
  | none =>
    rw [Fleet.log, hp]
    exact ⟨List.nil_prefix, fun hclosed => absurd hclosed Bool.false_ne_true⟩

theorem extends_hearing (t : Timeline Session Activity Result) (x : Move Command) (id : ProcessId) :
    Extends (t.state.hearing id).log ((move machinery t x).state.hearing id).log :=
  extends_log (later_move t x) id

theorem exists_of_backlog {f : Fleet} {heard : Nat} (h : Backlog (f.log id) w.queue heard) :
    (f.process? id).isSome = true := by
  cases hp : f.process? id with
  | some p => rfl
  | none =>
    have hbound := h.bound
    rw [Fleet.log, hp] at hbound
    cases hbound

structure Attended (id : ProcessId) (report : LineReport) (w : LineWait) (since : Nat)
    (task : TaskId) (t : Timeline Session Activity Result) : Prop where
  task : t.tasks[task]? = some (.pending (.act (.line id report w)))
  followed : Followed w.pattern w.queue since (t.state.fleet.log id)

theorem Attended.apart (h : Attended id report w since task t) (htidy : Tidy t) (hne : other ≠ task)
    (v : LineWait) (hv : Listens t other id v) : v.queue ≠ w.queue :=
  htidy.apart other task id v w hv ⟨report, h.task⟩ hne

theorem Attended.pollTask_of_ne (h : Attended id report w since task t) (htidy : Tidy t)
    (hne : other ≠ task) : Attended id report w since task (pollTask machinery t other) where
  task := (Timeline.pollTask_of_ne hne).trans h.task
  followed := h.followed.use (use_pollTask (p := (· ≠ w.queue)) (h.apart htidy hne))

theorem Attended.cancelTask_of_ne (h : Attended id report w since task t) (htidy : Tidy t)
    (hne : other ≠ task) : Attended id report w since task (cancelTask machinery t other).1 where
  task := (Timeline.cancelTask_of_ne hne).trans h.task
  followed := h.followed.use (use_cancelTask (p := (· ≠ w.queue)) (h.apart htidy hne))

/-- A call that goes on has come to what the log decides, or it is still under way. -/
theorem Attended.pollTask_self (h : Attended id report w since task t) :
    Attended id report w since task (pollTask machinery t task) ∨
      ∃ result, w.decision t.state.now since (t.state.fleet.log id) = some result ∧
        (pollTask machinery t task).tasks[task]? =
          some (.ended t.state.now (.result (result.map (lineAnswer report)))) := by
  obtain ⟨hstate, htask⟩ := pollTask_pending (m := machinery) h.task
  have hpoll : pollErrand machinery t (.act (.line id report w)) =
      ((pollLine id report w t.state).1, .ofProgress t.state.now
        ((w.poll t.state.now (t.state.fleet.log id)).2.2.map (.line id report)
          (·.map (lineAnswer report)))) := rfl
  rw [hpoll] at hstate htask
  rcases LineWait.poll_of_followed h.followed t.state.now with
    ⟨-, hpending, hfollowed⟩ | ⟨result, hdecision, hdone⟩
  · obtain ⟨heard, -, hbacklog, -⟩ := h.followed.heard
    obtain ⟨p, hp⟩ := Option.isSome_iff_exists.mp (exists_of_backlog hbacklog)
    have hlog : (pollLine id report w t.state).1.fleet.log id = _ := Fleet.log_setLog hp _
    rw [hpending] at htask
    exact .inl ⟨htask, by rwa [hstate, hlog]⟩
  · rw [hdone] at htask
    exact .inr ⟨result, hdecision, htask⟩

/-- While everything settles, a call is under way, or it has ended with what the log decided at some
time before. -/
structure Settling (id : ProcessId) (report : LineReport) (w : LineWait) (since : Nat)
    (task : TaskId)
    (t u : Timeline Session Activity Result) : Prop where
  later : Later machinery t u
  now : u.state.now = t.state.now
  tidy : Tidy u
  call : Attended id report w since task u ∨
    ∃ v result, Later machinery t v ∧ Later machinery v u ∧
      w.decision t.state.now since (v.state.fleet.log id) = some result ∧
      u.tasks[task]? = some (.ended t.state.now (.result (result.map (lineAnswer report))))

namespace Settling

theorem deliver (h : Settling id report w since task t u) :
    Settling id report w since task t { u with state := machinery.deliver u.state } where
  later := h.later.deliver
  now := (machinery_punctual.now_deliver u.state).trans h.now
  tidy := h.tidy.deliver
  call := by
    rcases h.call with hcall | ⟨v, result, htv, hvu, hd, hended⟩
    · exact .inl ⟨hcall.task, hcall.followed.use (use_deliver _ u.state id)⟩
    · exact .inr ⟨v, result, htv, hvu.deliver, hd, hended⟩

theorem complete (h : Settling id report w since task t u) :
    Settling id report w since task t { u with state := machinery.complete u.state } where
  later := h.later.complete
  now := (machinery_punctual.now_complete u.state).trans h.now
  tidy := h.tidy.complete
  call := by
    rcases h.call with hcall | ⟨v, result, htv, hvu, hd, hended⟩
    · exact .inl ⟨hcall.task, hcall.followed.use (use_complete _ u.state id)⟩
    · exact .inr ⟨v, result, htv, hvu.complete, hd, hended⟩

theorem pollTask (h : Settling id report w since task t u) (polled : TaskId) :
    Settling id report w since task t (pollTask machinery u polled) where
  later := h.later.poll polled
  now := (now_pollTask u polled).trans h.now
  tidy := h.tidy.pollTask polled
  call := by
    rcases h.call with hcall | ⟨v, result, htv, hvu, hd, hended⟩
    · by_cases hne : polled = task
      · subst hne
        refine hcall.pollTask_self.imp_right fun ⟨result, hd, hended⟩ => ?_
        rw [h.now] at hd hended
        exact ⟨u, result, h.later, .poll polled .refl, hd, hended⟩
      · exact .inl (hcall.pollTask_of_ne h.tidy hne)
    · exact .inr ⟨v, result, htv, hvu.poll polled, hd, ended_pollTask hended⟩

end Settling

/-- When everything has settled, a call has come to what the log decides, and else it has heard all
lines. -/
theorem Attended.settle (h : Attended id report w since task t) (htidy : Tidy t)
    (hstill : Instant.reached t.state.now w.deadline = true →
      ((settle machinery t).state.fleet.log id).lines = (t.state.fleet.log id).lines ∧
        ((settle machinery t).state.fleet.log id).closed = (t.state.fleet.log id).closed) :
    let log := (settle machinery t).state.fleet.log id
    w.decision t.state.now since log = none ∧
        Attended id report w log.lines.size task (settle machinery t) ∨
      ∃ result, w.decision t.state.now since log = some result ∧
        (settle machinery t).tasks[task]? =
          some (.ended t.state.now (.result (result.map (lineAnswer report)))) := by
  intro log
  have hsettled : Settling id report w since task t (Timeline.settle machinery t) :=
    settle_induction (m := machinery) (fun _ => Settling.deliver) (fun _ => Settling.complete)
      (fun _ polled hu => hu.pollTask polled) ⟨.refl, rfl, htidy, .inl h⟩
  rcases hsettled.call with hcall | ⟨v, result, htv, hvu, hd, hended⟩
  · left
    obtain ⟨hempty, hreached⟩ := waiting_settle t task _ hcall.task
    obtain ⟨hbacklog, hopen, hmissed⟩ := hcall.followed.of_empty hempty
    refine ⟨LineWait.decision_eq_none_iff.mpr ⟨hmissed, hopen, ?_⟩, hcall.task,
      .of_backlog hbacklog⟩
    exact hsettled.now ▸ hreached
  · right
    refine ⟨result, LineWait.decision_of_extends (extends_log hvu id) (fun hr => ?_) hd, hended⟩
    obtain ⟨hlines, hclosed⟩ := hstill hr
    exact (extends_log htv id).between (extends_log hvu id) hlines hclosed

/-- Nothing that begins keeps a line from a call, but it may cancel the call. -/
theorem Attended.launch (h : Attended id report w since task t) (htidy : Tidy t)
    (step : Step Command) :
    Cancelled (launch machinery t step) task ∨
      Attended id report w since task (launch machinery t step) := by
  cases hstep : step.command? with
  | none =>
    have hall := launch_idle (m := machinery) (t := t)
      (P := fun u => Tidy u ∧ (Cancelled u task ∨ Attended id report w since task u))
      ?_ ?_ ?_ hstep ⟨htidy, .inr h⟩
    · exact hall.2
    · rintro u new hidle ⟨hu, hcall⟩
      refine ⟨hu.of_use (fun _ => .refl) fun _ _ _ ⟨report, hw⟩ =>
        ⟨report, act_push_idle hidle hw⟩, ?_⟩
      rcases hcall with ⟨time, hc⟩ | hcall
      · exact .inl ⟨time, (push_of_lt (Array.getElem?_eq_some_iff.mp hc).1).trans hc⟩
      · exact .inr ⟨(push_of_lt (Array.getElem?_eq_some_iff.mp hcall.task).1).trans hcall.task,
          hcall.followed⟩
    · rintro u names ⟨hu, hcall⟩
      exact ⟨hu.of_use (fun _ => .refl) fun _ _ _ hw => hw,
        hcall.imp (fun hc => hc) fun hcall => ⟨hcall.task, hcall.followed⟩⟩
    · rintro u victim ⟨hu, hcall⟩
      refine ⟨hu.cancelTask victim, ?_⟩
      rcases hcall with ⟨time, hc⟩ | hcall
      · exact .inl ⟨time, ended_cancelTask hc⟩
      · by_cases hid : victim = task
        · subst hid
          exact .inl ⟨_, cancelTask_pending hcall.task⟩
        · exact .inr (hcall.cancelTask_of_ne hu hid)
  | some command =>
    obtain ⟨hstate, -, -⟩ := launch_command (m := machinery) hstep t
    rcases launch_task (m := machinery) h.task step with hsame | ⟨-, time, -, hcancelled⟩
    · refine .inr ⟨hsame, ?_⟩
      obtain ⟨heard, -, hbacklog, -⟩ := h.followed.heard
      rw [hstate]
      exact h.followed.use (use_start (Nat.ne_of_gt hbacklog.bound))
    · exact .inl ⟨time, hcancelled⟩

def relay (report : LineReport) : Ending Listening.Result → Ending Result
  | .result result => .result (result.map fun
    | .found found => lineAnswer report found
    | _ => .nothing)
  | _ => .nothing

theorem relay_found (report : LineReport) (result : LineWait.Result) :
    relay report (.result (result.map .found)) = .result (result.map (lineAnswer report)) := by
  cases result <;> rfl

def Regular (t : Timeline Session Activity Result) : Prop :=
  ∃ (s : Session) (w : System) (others : List Birth) (moves : List (Move Command)),
    s.handles = [] ∧ t = play machinery { state := s.afresh w others } moves

namespace Regular

theorem play (h : Regular t) (moves : List (Move Command)) : Regular (play machinery t moves) := by
  obtain ⟨s, w, others, earlier, hs, rfl⟩ := h
  exact ⟨s, w, others, earlier ++ moves, hs, (play_append _ earlier moves).symm⟩

theorem move (h : Regular t) (x : Move Command) : Regular (move machinery t x) :=
  h.play [x]

theorem faithful (h : Regular t) : ∃ ch, Faithful t ch := by
  obtain ⟨s, w, others, moves, -, rfl⟩ := h
  exact ⟨_, (faithful_afresh s w others).play moves⟩

theorem tidy (h : Regular t) : Tidy t := by
  obtain ⟨s, w, others, moves, hs, rfl⟩ := h
  exact tidy_later hs (Later.refl.play moves)

theorem handed (h : Regular t) (hid : t.state.Hands id) :
    (t.state.fleet.process? id).isSome = true := by
  obtain ⟨s, w, others, moves, hs, rfl⟩ := h
  exact (referring_later hs (Later.refl.play moves)).handed id hid

theorem now_le_move (h : Regular t) (x : Move Command) :
    t.state.now ≤ (Timeline.move machinery t x).state.now := by
  obtain ⟨ch, hfaithful⟩ := h.faithful
  exact hfaithful.now_le_move x

end Regular

theorem Attended.move_le_deadline (h : Attended id report w since task t)
    (hd : Instant.reached t.state.now w.deadline = false) (x : Move Command) (time : Instant)
    (htime : w.deadline = some time) : (move machinery t x).state.now ≤ time := by
  have hlt : t.state.now < time := Instant.reached_eq_false_iff.mp hd time htime
  rw [now_move]
  cases x with
  | begin step =>
    exact Nat.le_trans (Nat.le_of_eq (machinery_punctual.now_launch t step)) (Nat.le_of_lt hlt)
  | tick =>
    obtain ⟨next, hle, hn⟩ := nextMoment_le (m := machinery) (.inr ⟨task, _, h.task, htime⟩)
    simp only [stir, hn]
    exact Nat.le_trans (Nat.le_of_eq (machinery_punctual.now_advance t.state next)) hle

theorem Attended.stir (h : Attended id report w since task t) (htidy : Tidy t) (x : Move Command) :
    Cancelled (stir machinery t x) task ∨ Attended id report w since task (stir machinery t x) := by
  cases x with
  | begin step => exact h.launch htidy step
  | tick =>
    right
    unfold Timeline.stir
    cases nextMoment machinery t with
    | some moment => exact ⟨h.task, h.followed⟩
    | none => exact h

theorem Regular.tidy_stir (h : Regular t) (x : Move Command) : Tidy (stir machinery t x) := by
  cases x with
  | begin step => exact h.tidy.launch (fun _ => h.handed) step
  | tick =>
    unfold stir
    cases nextMoment machinery t with
    | some moment => exact h.tidy.of_use (fun _ => .refl) fun _ _ _ hw => hw
    | none => exact h.tidy

/-- How far a call has come, by the course of the log of its process since it began. -/
structure Expecting (id : ProcessId) (report : LineReport) (w : LineWait) (task : TaskId)
    (older : List String) (c : Listening.Course) (t : Timeline Session Activity Result) : Prop where
  regular : Regular t
  record : (t.state.hearing id).log.lines.toList = older ++ c.lines.map (·.2)
  closing : (t.state.hearing id).log.closed = c.closing.isSome
  past : ∀ entry ∈ c.lines, entry.1 ≤ (t.state.hearing id).now
  task : Cancelled t task ∨
    (∃ outcome, c.outcome? w older (t.state.hearing id).now = some outcome ∧
      t.tasks[task]? = some (.ended outcome.time (relay report outcome.ending))) ∨
    Attended id report w (t.state.hearing id).log.lines.size task t ∧
      Instant.reached (t.state.hearing id).now w.deadline = false ∧
      (t.state.hearing id).log.closed = false ∧ ∀ entry ∈ c.lines, w.pattern.search entry.2 = none

/-- A call that is under way when a move has begun comes to what the course says. -/
theorem expecting_of_attended {older : List String} {c : Listening.Course} {x : Move Command}
    (hregular : Regular t) (h : Attended id report w (t.state.hearing id).log.lines.size task
      (stir machinery t x))
    (hrecord : (t.state.hearing id).log.lines.toList = older ++ c.lines.map (·.2))
    (hopen : (t.state.hearing id).log.closed = false) (hclosing : c.closing = none)
    (hpast : ∀ entry ∈ c.lines, entry.1 ≤ (t.state.hearing id).now)
    (hnone : ∀ entry ∈ c.lines, w.pattern.search entry.2 = none)
    (hdeadline : ∀ time, w.deadline = some time →
      ((move machinery t x).state.hearing id).now ≤ time)
    (havoid : (c.observe (t.state.hearing id)
      ((move machinery t x).state.hearing id)).Avoids w.deadline) :
    let after := (move machinery t x).state.hearing id
    (∃ outcome, (c.observe (t.state.hearing id) after).outcome? w older after.now = some outcome ∧
      (move machinery t x).tasks[task]? =
        some (.ended outcome.time (relay report outcome.ending))) ∨
    Attended id report w after.log.lines.size task (move machinery t x) ∧
      Instant.reached after.now w.deadline = false ∧ after.log.closed = false ∧
      ∀ entry ∈ (c.observe (t.state.hearing id) after).lines, w.pattern.search entry.2 = none := by
  intro after
  have hext := extends_hearing t x id
  have hnow : after.now = (stir machinery t x).state.now := now_move t x
  have hsettled := h.settle (hregular.tidy_stir x) fun hr => by
    rw [← hnow] at hr
    obtain ⟨hlines, hclosed⟩ :=
      Listening.Course.still_of_avoids hext hopen hclosing hdeadline havoid hr
    exact (extends_log (Later.refl.stir x) id).between (extends_log Later.refl.settle id)
      hlines hclosed
  have houtcome := Listening.Course.outcome?_eq_decision hext hrecord hnone hclosing
    (fun entry he => Nat.le_trans (hpast entry he) (hregular.now_le_move x)) hdeadline havoid
  rw [← hnow] at hsettled
  rcases hsettled with ⟨hd, hattended⟩ | ⟨result, hd, hended⟩
  · obtain ⟨hnews, ho, hlate⟩ := LineWait.decision_eq_none_iff.mp hd
    refine .inr ⟨hattended, hlate, ho, fun entry he => ?_⟩
    rcases List.mem_append.mp he with he | he
    · exact hnone entry he
    · obtain ⟨line, hl, rfl⟩ := List.mem_map.mp he
      exact hnews line hl
  · have hdecision : w.decision after.now (t.state.hearing id).log.lines.size after.log =
      some result := hd
    rw [hdecision] at houtcome
    exact .inl ⟨_, houtcome, by rw [relay_found]; exact hended⟩

namespace Expecting

variable {older : List String} {c : Listening.Course}

theorem move (h : Expecting id report w task older c t) (x : Move Command)
    (havoid : (c.observe (t.state.hearing id)
      ((Timeline.move machinery t x).state.hearing id)).Avoids w.deadline) :
    Expecting id report w task older
      (c.observe (t.state.hearing id) ((Timeline.move machinery t x).state.hearing id))
      (Timeline.move machinery t x) := by
  have hext := extends_hearing t x id
  have hle : (t.state.hearing id).now ≤ ((Timeline.move machinery t x).state.hearing id).now :=
    h.regular.now_le_move x
  refine ⟨h.regular.move x, Listening.Course.lines_observe hext h.record,
    Listening.Course.closing_observe hext h.closing, ?_, ?_⟩
  · intro entry he
    rcases List.mem_append.mp he with he | he
    · exact Nat.le_trans (h.past entry he) hle
    · obtain ⟨line, -, rfl⟩ := List.mem_map.mp he
      exact Nat.le_refl _
  · rcases h.task with ⟨time, hc⟩ | ⟨outcome, ho, ht⟩ | ⟨ha, hr, hopen, hnone⟩
    · exact .inl ⟨time, ended_play hc [x]⟩
    · exact .inr (.inl ⟨outcome, Listening.Course.outcome?_observe hext h.closing hle havoid ho,
        ended_play ht [x]⟩)
    · have hclosing : c.closing = none := by simpa [hopen] using h.closing.symm
      rcases ha.stir h.regular.tidy x with ⟨time, hc⟩ | hs
      · exact .inl ⟨time, ended_settle hc⟩
      · exact .inr (expecting_of_attended h.regular hs h.record hopen hclosing h.past hnone
          (ha.move_le_deadline hr x) havoid)

theorem avoids_of_course {moves : List (Move Command)} {deadline : Option Instant}
    (h : (course id t c moves).Avoids deadline) : c.Avoids deadline := by
  induction moves generalizing t c with
  | nil => exact h
  | cons x moves ih =>
    intro time ht
    obtain ⟨hlines, hclosing⟩ := ih h time ht
    refine ⟨fun entry he => hlines entry (List.mem_append_left _ he), fun hc => hclosing ?_⟩
    rw [Listening.Course.observe, hc]
    rfl

theorem play (h : Expecting id report w task older c t) (moves : List (Move Command))
    (havoid : (course id t c moves).Avoids w.deadline) :
    Expecting id report w task older (course id t c moves) (play machinery t moves) := by
  induction moves generalizing t c with
  | nil => exact h
  | cons x moves ih => exact ih (h.move x (avoids_of_course havoid)) havoid

end Expecting

section

variable {call : LineCall} {command : Command} {compiled : Compiled}

/-- A call that begins comes to what the log decides at once, or it is under way from then on. -/
theorem attended_launch (hregular : Regular t) (hstep : step.command? = some command)
    (hcall : t.state.lineCall? command = some call) (hpattern : call.pattern.compile = .ok compiled)
    (hw : w = (LineWait.start compiled call.limit t.state.now (t.state.fleet.log call.process)).2) :
    let log := t.state.fleet.log call.process
    (∃ result, w.decision t.state.now log.lines.size log = some result ∧
      (launch machinery t step).tasks[t.tasks.size]? =
        some (.ended t.state.now (.result (result.map (lineAnswer call.report))))) ∨
    w.decision t.state.now log.lines.size log = none ∧
      Attended call.process call.report w log.lines.size t.tasks.size
        (launch machinery t step) := by
  intro log
  obtain ⟨hstate, htask, -⟩ := launch_command (m := machinery) hstep t
  obtain ⟨hstart, hhands⟩ := start_lineCall t.activities hcall
  rw [startLine_eq hpattern, ← hw] at hstart
  rw [show machinery.start t.activities command t.state = _ from hstart] at hstate htask
  obtain ⟨p, hp⟩ := Option.isSome_iff_exists.mp (hregular.handed hhands)
  have hlog : (t.state.subscribed call.process).fleet.log call.process = log.subscribe.1 :=
    Fleet.log_setLog hp _
  have hqueue : w.queue = log.queues.size := hw ▸ LineWait.queue_start _ _ _ _
  have hfollowed : Followed w.pattern w.queue log.lines.size log.subscribe.1 :=
    .of_backlog (hqueue ▸ .of_subscribe (hregular.tidy.bounded call.process))
  have hdecision : w.decision t.state.now log.lines.size log.subscribe.1 =
      w.decision t.state.now log.lines.size log :=
    LineWait.decision_congr (lines_subscribe _) (closed_subscribe _)
  have hpoll : pollLine call.process call.report w (t.state.subscribed call.process) =
      ({ t.state.subscribed call.process with
          fleet := ((t.state.subscribed call.process).fleet.setLog call.process
            (w.poll t.state.now log.subscribe.1).1).report
              (w.poll t.state.now log.subscribe.1).2.1 },
        (w.poll t.state.now log.subscribe.1).2.2.map (.line call.process call.report)
          (·.map (lineAnswer call.report))) := by
    rw [← hlog]
    rfl
  rw [hpoll] at hstate htask
  -- the call is polled once as it begins, and goes on following what it cannot decide then
  rcases LineWait.poll_of_followed hfollowed t.state.now with
    ⟨hd, hpending, hfollowed⟩ | ⟨result, hd, hdone⟩
  · rw [hpending] at htask
    refine .inr ⟨hdecision.symm.trans hd, htask, ?_⟩
    have hset : (t.state.subscribed call.process).fleet.process? call.process =
        some { p with log := log.subscribe.1 } := by
      rw [subscribed, Fleet.process?_setLog, if_pos rfl, hp]
      rfl
    rw [hstate]
    exact (Fleet.log_setLog hset (w.poll t.state.now log.subscribe.1).1).symm ▸ hfollowed
  · rw [hdone] at htask
    exact .inl ⟨result, hdecision.symm.trans hd, htask⟩

/-- A call that begins on an open log comes to what the course of the log says from then on. -/
theorem expecting_begin (hregular : Regular t) (hstep : step.command? = some command)
    (hcall : t.state.lineCall? command = some call) (hpattern : call.pattern.compile = .ok compiled)
    (hw : w = (LineWait.start compiled call.limit t.state.now (t.state.fleet.log call.process)).2)
    (hopen : (t.state.hearing call.process).log.closed = false)
    (havoid : (({} : Listening.Course).observe (t.state.hearing call.process)
      ((move machinery t (.begin step)).state.hearing call.process)).Avoids w.deadline) :
    Expecting call.process call.report w t.tasks.size
      (t.state.hearing call.process).log.lines.toList
      (({} : Listening.Course).observe (t.state.hearing call.process)
        ((move machinery t (.begin step)).state.hearing call.process))
      (move machinery t (.begin step)) := by
  have hext := extends_hearing t (.begin step) call.process
  have hnow : ((move machinery t (.begin step)).state.hearing call.process).now =
      (t.state.hearing call.process).now :=
    (now_move t (.begin step)).trans (machinery_punctual.now_launch t step)
  have hrecord : (t.state.hearing call.process).log.lines.toList =
      (t.state.hearing call.process).log.lines.toList ++
        (({} : Listening.Course).lines.map (·.2)) := (List.append_nil _).symm
  have hdeadline : ∀ time, w.deadline = some time →
      ((move machinery t (.begin step)).state.hearing call.process).now ≤ time := by
    intro time htime
    rw [hw] at htime
    obtain ⟨span, -, rfl⟩ := Option.map_eq_some_iff.mp htime
    exact Nat.le_trans (Nat.le_of_eq hnow) (Nat.le_add_right _ _)
  refine ⟨hregular.move _, Listening.Course.lines_observe hext hrecord,
    Listening.Course.closing_observe hext hopen, ?_, .inr ?_⟩
  · intro entry he
    obtain ⟨line, -, rfl⟩ := List.mem_map.mp he
    exact Nat.le_refl _
  · rcases attended_launch hregular hstep hcall hpattern hw with
      ⟨result, hd, hended⟩ | ⟨-, hattended⟩
    · refine .inl ⟨⟨t.state.now, .result (result.map .found)⟩, ?_, ?_⟩
      · exact Listening.Course.outcome?_of_spent hext hopen hnow hdeadline havoid hd
      · rw [relay_found]
        exact ended_settle hended
    · exact expecting_of_attended (x := .begin step) hregular hattended hrecord hopen rfl
        nofun nofun
        hdeadline havoid

end

def Persists (id : ProcessId) (report : LineReport) (w : LineWait)
    (x : Task Activity Result) : Prop :=
  x = .pending (.act (.line id report w)) ∨ ∃ time ending, x = .ended time ending

theorem upheld_persists (id : ProcessId) (report : LineReport) (w : LineWait) (task : TaskId) :
    Upheld machinery task fun _ _ x => Persists id report w x where
  still _ _ h := h
  tick _ _ _ h := h
  cancel _ := .inr ⟨_, _, rfl⟩
  poll {turns t errand} htask h := by
    rcases h with he | ⟨time, ending, he⟩
    · obtain rfl := Task.pending.inj he
      change Persists id report w (.ofProgress t.state.now
        ((w.poll t.state.now (t.state.fleet.log id)).2.2.map (.line id report)
          (·.map (lineAnswer report))))
      cases hp : (w.poll t.state.now (t.state.fleet.log id)).2.2 with
      | done result => exact .inr ⟨_, _, rfl⟩
      | pending rest =>
        obtain ⟨rfl, -, -⟩ := LineWait.pending_poll hp
        exact .inl rfl
    · cases he

/-- While a call with a deadline is under way the clock goes on, until the call has ended. -/
theorem Regular.ends (h : Regular t) {deadline : Instant} (hd : w.deadline = some deadline)
    (htimely : Timely machinery t task)
    (hpersists : Holding (fun _ _ x => Persists id report w x) task [] t) :
    ∃ count time ending, (Timeline.play machinery t (List.replicate count .tick)).tasks[task]? =
      some (.ended time ending) := by
  obtain ⟨ch, hfaithful⟩ := h.faithful
  obtain ⟨count, hstands⟩ := exists_standsAt hfaithful (Nat.le_max_right deadline t.state.now)
  obtain ⟨x, hx, rfl | ⟨time, ending, rfl⟩⟩ := (upheld_persists id report w task).play
    machinery_punctual htimely (List.replicate count .tick) hpersists
  · -- the deadline is still ahead, where the timeline has come as far as that
    obtain ⟨next, hle, hnext⟩ := nextMoment_le (m := machinery) (.inr ⟨task, _, hx, hd⟩)
    have hover := Nat.lt_of_le_of_lt (Nat.le_max_left _ _) (hstands.ahead next hnext)
    exact absurd hle (Nat.not_le.mpr hover)
  · exact ⟨count, time, ending, hx⟩

/-- What a call has come to by now, by the course of the log since it began: the first line in time
that it has an answer to, or else the end of the log in time, or else its deadline. -/
def answered? (reply : String → Option Answer) (w : LineWait) (older : List String)
    (c : Listening.Course) (now : Instant) : Option (Outcome Result) :=
  match c.lines.findSome? fun entry =>
      if Instant.reached entry.1 w.deadline then none else (reply entry.2).map (entry.1, ·) with
  | some (time, answer) => some ⟨time, .result (.ok answer)⟩
  | none =>
    match c.closing.filter fun time => !Instant.reached time w.deadline with
    | some time =>
      let output := "\n".intercalate (older ++ c.lines.map (·.2))
      some ⟨time, .result (.error (.streamClosed w.pattern.text output))⟩
    | none =>
      (w.deadline.filter (· ≤ now)).map fun time =>
        let output := "\n".intercalate (older ++ (c.lines.filter (·.1 ≤ time)).map (·.2))
        ⟨time, .result (.error (w.timeoutFailure output))⟩

theorem answered?_eq {reply : String → Option Answer} {older : List String} {c : Listening.Course}
    {now : Instant}
    (h : ∀ entry ∈ c.lines, reply entry.2 = (w.pattern.search entry.2).map (lineAnswer report)) :
    answered? reply w older c now = (c.outcome? w older now).map fun outcome =>
      ⟨outcome.time, relay report outcome.ending⟩ := by
  have hfirst : (c.lines.findSome? fun entry =>
      if Instant.reached entry.1 w.deadline then none else (reply entry.2).map (entry.1, ·)) =
        (c.match? w).map fun found => (found.1, lineAnswer report found.2) := by
    rw [Listening.Course.match?]
    generalize c.lines = lines at h
    induction lines with
    | nil => rfl
    | cons entry lines ih =>
      rw [List.findSome?_cons, List.findSome?_cons, Listening.Course.find?,
        h entry List.mem_cons_self, ih fun other ho => h other (List.mem_cons_of_mem entry ho)]
      cases Instant.reached entry.1 w.deadline with
      | true => rfl
      | false => cases w.pattern.search entry.2 <;> rfl
  rw [answered?, Listening.Course.outcome?, hfirst]
  cases c.match? w with
  | some found => rfl
  | none =>
    dsimp only [Option.map_none]
    cases c.closing.filter fun time => !Instant.reached time w.deadline with
    | some time => rfl
    | none => cases w.deadline.filter (· ≤ now) <;> rfl

/-- The first line in time that there is an answer to is what a call has come to. -/
theorem answered?_of_first {reply : String → Option Answer} {older : List String}
    {c : Listening.Course} {now time : Instant} {earlier later : List (Instant × String)}
    {line : String} {answer : Answer} (hlines : c.lines = earlier ++ (time, line) :: later)
    (hintime : Instant.reached time w.deadline = false)
    (hearlier : ∀ entry ∈ earlier, reply entry.2 = none) (hreply : reply line = some answer) :
    answered? reply w older c now = some ⟨time, .result (.ok answer)⟩ := by
  have hnone : earlier.findSome? (fun entry => if Instant.reached entry.1 w.deadline then none
      else (reply entry.2).map (entry.1, ·)) = none := by
    refine List.findSome?_eq_none_iff.mpr fun entry he => ?_
    rw [hearlier entry he, Option.map_none, ite_self]
  rw [answered?, hlines, List.findSome?_append, hnone, Option.none_or, List.findSome?_cons, hintime,
    hreply]
  rfl

/-- What becomes of a call that a step begins, if it has an answer to just those lines that `reply`
gives one to: it fails at once where the log is closed or its limit has run out, and otherwise it
has come to what the course of the log since the step says, unless another step has cancelled it. A
call with a deadline ends. -/
def Resolves (t : Timeline Session Activity Result) (call : LineCall)
    (reply : String → Option Answer) (step : Step Command) (moves : List (Move Command)) : Prop :=
  ∃ compiled, call.pattern.compile = .ok compiled ∧
    let log := t.state.fleet.log call.process
    let w := (LineWait.start compiled call.limit t.state.now log).2
    let after := play machinery t (.begin step :: moves)
    let course := course call.process t {} (.begin step :: moves)
    let task := after.tasks[t.tasks.size]?
    (log.closed = true → task = some (.ended t.state.now
      (.result (.error (.streamClosed compiled.text log.snapshot))))) ∧
    (log.closed = false → call.limit.Spent → task = some (.ended t.state.now
      (.result (.error (w.timeoutFailure log.snapshot))))) ∧
    (log.closed = false → course.Avoids w.deadline → ¬ Cancelled after t.tasks.size →
      task = some ((answered? reply w log.lines.toList course after.state.now).elim
        (.pending (.act (.line call.process call.report w)))
        fun outcome => .ended outcome.time outcome.ending)) ∧
    (Cancelled after t.tasks.size → ∃ other, Move.begin other ∈ moves ∧ other.cancels = true) ∧
    ∀ deadline, w.deadline = some deadline → ∃ count time ending,
      (play machinery after (List.replicate count .tick)).tasks[t.tasks.size]? =
        some (.ended time ending)

theorem Regular.newline_not_mem (h : Regular t) {line : String}
    (hline : line ∈ (t.state.fleet.log id).lines.toList) : '\n' ∉ line.toList := by
  obtain ⟨s, w, others, moves, -, rfl⟩ := h
  have hnone : (s.afresh w others).fleet.Each Supervised.Clean := fun id p hp => by cases hp
  have hclean := Supervised.enduring_clean.each (fun _ => Supervised.Clean.fresh)
    (Later.refl (t := { state := s.afresh w others }) |>.play moves) hnone
  cases hp :
    (Timeline.play machinery { state := s.afresh w others } moves).state.fleet.process? id with
  | none =>
    rw [Fleet.log, hp] at hline
    cases hline
  | some p =>
    rw [Fleet.log_eq hp] at hline
    exact fun hm => (hclean id p hp).recorded line hline _ hm (.inl rfl)

/-- What a call has come to that is expected, unless it has been cancelled. -/
theorem Expecting.task_eq {older : List String} {c : Listening.Course}
    {reply : String → Option Answer} (h : Expecting id report w task older c t)
    (hreply : ∀ line : String, '\n' ∉ line.toList →
      reply line = (w.pattern.search line).map (lineAnswer report))
    (hcancel : ¬ Cancelled t task) :
    t.tasks[task]? = some ((answered? reply w older c t.state.now).elim
      (.pending (.act (.line id report w))) fun outcome => .ended outcome.time outcome.ending) := by
  have hline : ∀ entry ∈ c.lines, '\n' ∉ entry.2.toList := by
    intro entry he
    have hmem : entry.2 ∈ (t.state.fleet.log id).lines.toList := by
      rw [← hearing_log, h.record]
      exact List.mem_append_right _ (List.mem_map_of_mem he)
    exact h.regular.newline_not_mem hmem
  rw [answered?_eq fun entry he => hreply entry.2 (hline entry he), ← hearing_now t.state id]
  rcases h.task with hc | ⟨outcome, ho, ht⟩ | ⟨ha, hr, hopen, hnone⟩
  · exact absurd hc hcancel
  · rw [ho]
    exact ht
  · have hclosing : c.closing = none := by simpa [hopen] using h.closing.symm
    rw [Listening.Course.outcome?_eq_none hnone hclosing hr]
    exact ha.task

/-- A call that waits for a line resolves by what its pattern is found in. -/
theorem Regular.resolves (h : Regular t) {call : LineCall} {command : Command} {compiled : Compiled}
    {reply : String → Option Answer} (hstep : step.command? = some command)
    (hcall : t.state.lineCall? command = some call) (hpattern : call.pattern.compile = .ok compiled)
    (hreply : ∀ line : String, '\n' ∉ line.toList →
      reply line = (compiled.search line).map (lineAnswer call.report))
    (moves : List (Move Command)) : Resolves t call reply step moves := by
  refine ⟨compiled, hpattern, ?_⟩
  intro log w after course task
  have hlaunch := attended_launch h hstep hcall hpattern (w := w) rfl
  have hbegin := Listening.decision_begin w (t.state.hearing call.process)
  have hended : ∀ result, w.decision t.state.now log.lines.size log = some result →
      task = some (.ended t.state.now (.result (result.map (lineAnswer call.report)))) := by
    intro result hd
    rcases hlaunch with ⟨other, ho, hended⟩ | ⟨hnone, -⟩
    · obtain rfl := Option.some.inj (hd.symm.trans ho)
      exact ended_play (ended_settle hended) moves
    · cases hd.symm.trans hnone
  refine ⟨fun hc => ?_, fun hopen hspent => ?_, fun hopen havoid hcancel => ?_,
    cancelled_step hstep,
    fun deadline hd => ?_⟩
  · rw [hearing_log, hc, if_pos rfl] at hbegin
    exact hended _ hbegin
  · have hreached : Instant.reached (t.state.hearing call.process).now w.deadline = true :=
      Instant.reached_eq_true_iff.mpr ⟨_, hspent.deadline _, Nat.le_refl _⟩
    rw [hreached, hearing_log, hopen, if_neg Bool.false_ne_true, if_pos rfl] at hbegin
    exact hended _ hbegin
  · have hbegun := expecting_begin h hstep hcall hpattern rfl hopen
      (Expecting.avoids_of_course havoid)
    exact (hbegun.play moves havoid).task_eq hreply hcancel
  · have hbegun : ∃ x, (launch machinery t step).tasks[t.tasks.size]? = some x ∧
        Persists call.process call.report w x := by
      rcases hlaunch with ⟨result, -, hended⟩ | ⟨-, hattended⟩
      · exact ⟨_, hended, .inr ⟨_, _, rfl⟩⟩
      · exact ⟨_, hattended.task, .inl rfl⟩
    refine (h.play (.begin step :: moves)).ends hd ?_
      ((upheld_persists call.process call.report w t.tasks.size).step machinery_punctual
        hbegun moves)
    exact machinery_punctual.timely_play (machinery_punctual.timely_settle _) moves _

/-- A call under way has come to the first line that it has an answer to, if nothing has happened
yet that its deadline does not allow. -/
theorem Resolves.first {call : LineCall} {reply : String → Option Answer}
    {moves : List (Move Command)}
    {earlier later : List (Instant × String)} {time : Instant} {line : String} {answer : Answer}
    (h : Resolves t call reply step moves) (hopen : (t.state.fleet.log call.process).closed = false)
    (hlines : (course call.process t {} (.begin step :: moves)).lines =
      earlier ++ (time, line) :: later)
    (hclosing : (course call.process t {} (.begin step :: moves)).closing = none)
    (hintime : ∀ deadline, call.limit.deadline t.state.now = some deadline →
      ∀ entry ∈ earlier ++ (time, line) :: later, entry.1 < deadline)
    (hcancels : ∀ other, Move.begin other ∈ moves → other.cancels = false)
    (hearlier : ∀ entry ∈ earlier, reply entry.2 = none) (hreply : reply line = some answer) :
    (play machinery t (.begin step :: moves)).tasks[t.tasks.size]? =
      some (.ended time (.result (.ok answer))) := by
  obtain ⟨compiled, -, -, -, hcome, hcancelled, -⟩ := h
  have hcancel : ¬ Cancelled (play machinery t (.begin step :: moves)) t.tasks.size := by
    intro hc
    obtain ⟨other, hm, hc⟩ := hcancelled hc
    cases (hcancels other hm).symm.trans hc
  have htask := hcome hopen (fun deadline hd => ?_) hcancel
  · have hearly : Instant.reached time (call.limit.deadline t.state.now) = false :=
      Instant.reached_eq_false_iff.mpr fun deadline hd =>
        hintime deadline hd _ (List.mem_append_right _ List.mem_cons_self)
    rw [htask, answered?_of_first hlines hearly hearlier hreply]
    rfl
  · rw [hclosing, hlines]
    exact ⟨fun entry he => Nat.ne_of_lt (hintime deadline hd entry he), nofun⟩

end Session

end Overseer
