import Overseer.Proofs.Listening.WaitQueues
import Overseer.Proofs.Number.Limits

/-!
# What a wait comes to

The course of a log from some moment on, and what a wait that begins then comes to by that course
alone (`Course.outcome?`): the first line in time that its pattern is found in, or else the end of
the log in time, or else its deadline. Whatever else goes on beside it, that is what the wait comes
to (`wait_resolves`).
-/

namespace Overseer.Listening

open Number OutputLog Pattern Timeline

/-- What happens to a log from some moment on: the lines that come, and its end. -/
structure Course where
  lines : List (Instant × String) := []
  closing : Option Instant := none
  deriving DecidableEq, Repr

namespace Course

def observe (c : Course) (before after : Listening) : Course where
  lines := c.lines ++ (after.log.lines.toList.drop before.log.lines.size).map (after.now, ·)
  closing := c.closing <|> if after.log.closed then some after.now else none

def find? (w : LineWait) (entry : Instant × String) : Option (Instant × Match) :=
  if Instant.reached entry.1 w.deadline then none
  else (w.pattern.search entry.2).map (entry.1, ·)

def match? (c : Course) (w : LineWait) : Option (Instant × Match) := c.lines.findSome? (find? w)

/-- What a wait has come to by now. The lines of the log are those that were there before and those
of the course. -/
def outcome? (c : Course) (w : LineWait) (older : List String) (now : Instant) :
    Option (Outcome Result) :=
  match c.match? w with
  | some (time, found) => some ⟨time, .result (.ok (.found found))⟩
  | none =>
    match c.closing.filter fun time => !Instant.reached time w.deadline with
    | some time =>
      let output := "\n".intercalate (older ++ c.lines.map (·.2))
      some ⟨time, .result (.error (.streamClosed w.pattern.text output))⟩
    | none =>
      (w.deadline.filter (· ≤ now)).map fun time =>
        let output := "\n".intercalate (older ++ (c.lines.filter (·.1 ≤ time)).map (·.2))
        ⟨time, .result (.error (w.timeoutFailure output))⟩

def task (c : Course) (w : LineWait) (older : List String) (now : Instant) :
    Task LineWait Result :=
  match c.outcome? w older now with
  | some outcome => .ended outcome.time outcome.ending
  | none => .pending (.act w)

def Avoids (c : Course) (deadline : Option Instant) : Prop :=
  ∀ time, deadline = some time → (∀ entry ∈ c.lines, entry.1 ≠ time) ∧ c.closing ≠ some time

end Course

def course (t : Listeners) (c : Course) : List (Move Command) → Course
  | [] => c
  | x :: moves =>
    course (move machinery t x) (c.observe t.state (move machinery t x).state) moves

section

variable {w : LineWait} {id : TaskId} {heard : Nat} {t : Listeners} {older : List String}
  {c : Course}

theorem extension_launch (t : Listeners) (step : Step Command) :
    Extends t.state.log (launch machinery t step).state.log := by
  refine launch_induction (m := machinery)
    (P := fun u : Listeners => Extends t.state.log u.state.log)
    (fun _ _ _ hu => hu) (fun _ _ hu => hu) ?_ ?_ (.refl _) step
  · intro u victim hu
    rcases cancelTask_state (m := machinery) u victim with ⟨v, -, hs⟩ | hs
    · rw [hs]
      exact hu.trans (.of_eq rfl rfl)
    · rwa [hs]
  · exact fun u command hu => hu.trans (use_start (p := fun _ => True) trivial command).extension

theorem extension_stir (t : Listeners) (x : Move Command) :
    Extends t.state.log (stir machinery t x).state.log := by
  cases x with
  | begin step => exact extension_launch t step
  | tick =>
    unfold stir
    cases nextMoment machinery t with
    | some moment => exact (use_advance (fun _ => True) t.state moment).extension
    | none => exact .refl _

theorem sameRecord_move (t : Listeners) (x : Move Command) :
    SameRecord (stir machinery t x).state (move machinery t x).state :=
  SameRecord.settle ⟨rfl, rfl, rfl⟩

theorem extension_move (t : Listeners) (x : Move Command) :
    Extends t.state.log (move machinery t x).state.log :=
  (extension_stir t x).trans (.of_eq (sameRecord_move t x).lines (sameRecord_move t x).closed)

theorem Attended.stir (h : Attended w id heard t) (x : Move Command) :
    Cancelled (stir machinery t x) id ∨ Attended w id heard (stir machinery t x) := by
  cases x with
  | begin step => exact h.launch step
  | tick =>
    right
    unfold Timeline.stir
    cases nextMoment machinery t with
    | some moment => exact h.advance moment
    | none => exact h

theorem Tidy.move (h : Tidy t) (x : Move Command) : Tidy (move machinery t x) :=
  h.later (Later.refl.stir x).settle

theorem now_lt_nextMoment (h : Tidy t) (htimely : ∀ id, Timely machinery t id) {moment : Instant}
    (hn : nextMoment machinery t = some moment) : t.state.now < moment := by
  rcases nextMoment_mem hn with hc | ⟨other, task, htask, hwake⟩
  · obtain ⟨entry, hentry, rfl⟩ := Option.map_eq_some_iff.mp hc
    exact h.ahead entry (List.mem_of_mem_head? hentry)
  · exact htimely other task htask moment hwake

theorem now_le_move (h : Tidy t) (htimely : ∀ id, Timely machinery t id) (x : Move Command) :
    t.state.now ≤ (move machinery t x).state.now := by
  rw [(sameRecord_move t x).now]
  cases x with
  | begin step => exact Nat.le_of_eq (machinery_punctual.now_launch t step).symm
  | tick =>
    unfold stir
    cases hn : nextMoment machinery t with
    | none => exact Nat.le_refl _
    | some moment =>
      change t.state.now ≤ (t.state.advance moment).now
      rw [now_advance]
      exact Nat.le_of_lt (now_lt_nextMoment h htimely hn)

theorem move_le_deadline (h : Attended w id heard t)
    (hd : Instant.reached t.state.now w.deadline = false) (x : Move Command) (time : Instant)
    (htime : w.deadline = some time) : (move machinery t x).state.now ≤ time := by
  have hlt : t.state.now < time := Instant.reached_eq_false_iff.mp hd time htime
  rw [(sameRecord_move t x).now]
  cases x with
  | begin step =>
    exact Nat.le_trans (Nat.le_of_eq (machinery_punctual.now_launch t step)) (Nat.le_of_lt hlt)
  | tick =>
    obtain ⟨next, hle, hn⟩ := nextMoment_le (m := machinery) (.inr ⟨id, _, h.task, htime⟩)
    simp only [stir, hn]
    change (t.state.advance next).now ≤ time
    rw [now_advance]
    exact hle

end

namespace Course

variable {w : LineWait} {older : List String} {c : Course} {now later : Instant}
  {before after : Listening}

theorem match?_eq_none (h : ∀ entry ∈ c.lines, w.pattern.search entry.2 = none) :
    c.match? w = none := by
  refine List.findSome?_eq_none_iff.mpr fun entry he => ?_
  rw [find?, h entry he]
  split <;> rfl

theorem findSome?_of_reached (h : Instant.reached now w.deadline = true) (news : List String) :
    (news.map fun line => (now, line)).findSome? (find? w) = none := by
  refine List.findSome?_eq_none_iff.mpr fun entry he => ?_
  obtain ⟨line, -, rfl⟩ := List.mem_map.mp he
  rw [find?, if_pos h]

theorem findSome?_of_not_reached (h : Instant.reached now w.deadline = false)
    (news : List String) :
    (news.map fun line => (now, line)).findSome? (find? w) =
      (news.findSome? w.pattern.search).map (now, ·) := by
  induction news with
  | nil => rfl
  | cons line news ih =>
    rw [List.map_cons, List.findSome?_cons, List.findSome?_cons, find?, h]
    cases w.pattern.search line with
    | some found => rfl
    | none => exact ih

/-- A course without a line to find, without an end and before the deadline decides nothing. -/
theorem outcome?_eq_none (h : ∀ entry ∈ c.lines, w.pattern.search entry.2 = none)
    (hc : c.closing = none) (hd : Instant.reached now w.deadline = false) :
    c.outcome? w older now = none := by
  have hlate : w.deadline.filter (· ≤ now) = none := by
    rw [Option.filter_eq_none_iff]
    intro time ht
    simpa using Instant.reached_eq_false_iff.mp hd time ht
  simp only [outcome?, match?_eq_none h, hc, hlate]
  rfl

/-- The lines that have come are those of the log that were not there before. -/
theorem lines_observe (hext : Extends before.log after.log)
    (hrecord : before.log.lines.toList = older ++ c.lines.map (·.2)) :
    after.log.lines.toList = older ++ (c.observe before after).lines.map (·.2) := by
  have hkept := List.prefix_iff_eq_append.mp hext.kept
  rw [Array.length_toList] at hkept
  rw [← hkept]
  simp [observe, hrecord, Function.comp_def]

theorem observe_of_closed (hext : Extends before.log after.log) (hc : before.log.closed = true)
    (hclosing : before.log.closed = c.closing.isSome) : c.observe before after = c := by
  obtain ⟨time, ht⟩ := Option.isSome_iff_exists.mp (hclosing.symm.trans hc)
  have hnews : after.log.lines.toList.drop before.log.lines.size = [] := by
    rw [(hext.final hc).2]
    exact List.drop_eq_nil_of_le (by simp)
  cases c with
  | mk lines closing =>
    obtain rfl : closing = some time := ht
    simp [observe, hnews]

theorem closing_observe (hext : Extends before.log after.log)
    (hclosing : before.log.closed = c.closing.isSome) :
    after.log.closed = (c.observe before after).closing.isSome := by
  cases hc : before.log.closed with
  | true => rw [observe_of_closed hext hc hclosing, ← hclosing, hc, (hext.final hc).1]
  | false =>
    have hn : c.closing = none := by simpa [hc] using hclosing.symm
    cases ha : after.log.closed <;> simp [observe, hn, ha]

theorem outcome?_observe {outcome : Outcome Result} (hext : Extends before.log after.log)
    (hclosing : before.log.closed = c.closing.isSome) (hle : now ≤ after.now)
    (havoid : (c.observe before after).Avoids w.deadline)
    (h : c.outcome? w older now = some outcome) :
    (c.observe before after).outcome? w older after.now = some outcome := by
  unfold outcome? at h ⊢
  cases hm : c.match? w with
  | some found =>
    have hm' : (c.observe before after).match? w = some found := by
      unfold match? at hm ⊢
      rw [observe, List.findSome?_append, hm]
      rfl
    rw [hm] at h
    rw [hm']
    exact h
  | none =>
    rw [hm] at h
    cases hc : c.closing.filter fun time => !Instant.reached time w.deadline with
    | some time =>
      have hclosed : before.log.closed = true := by
        rw [hclosing, (Option.filter_eq_some_iff.mp hc).1]
        rfl
      rw [observe_of_closed hext hclosed hclosing, hm, hc]
      rw [hc] at h
      exact h
    | none =>
      rw [hc] at h
      obtain ⟨deadline, hf, rfl⟩ := Option.map_eq_some_iff.mp h
      obtain ⟨hd, hdue⟩ := Option.filter_eq_some_iff.mp hf
      -- the wait has run out by now, so nothing that comes in the move can still count
      have hlate : deadline ≤ after.now := Nat.le_trans (of_decide_eq_true hdue) hle
      have hreached : Instant.reached after.now w.deadline = true :=
        Instant.reached_eq_true_iff.mpr ⟨deadline, hd, hlate⟩
      have hm' : (c.observe before after).match? w = none := by
        unfold match? at hm ⊢
        rw [observe, List.findSome?_append, hm]
        exact findSome?_of_reached hreached _
      have hc' : ((c.observe before after).closing.filter fun time =>
          !Instant.reached time w.deadline) = none := by
        cases ht : c.closing with
        | some time => simpa [observe, ht] using hc
        | none => cases ha : after.log.closed <;> simp [observe, ht, ha, hreached]
      have hl : (c.observe before after).lines.filter (·.1 ≤ deadline) =
          c.lines.filter (·.1 ≤ deadline) := by
        have hnew : ((after.log.lines.toList.drop before.log.lines.size).map fun line =>
            (after.now, line)).filter (·.1 ≤ deadline) = [] := by
          refine List.filter_eq_nil_iff.mpr fun entry he => ?_
          have hne := (havoid deadline hd).1 entry (List.mem_append_right _ he)
          obtain ⟨line, -, rfl⟩ := List.mem_map.mp he
          simpa using Nat.lt_of_le_of_ne hlate hne.symm
        exact (List.filter_append ..).trans (by rw [hnew, List.append_nil])
      have hf' : w.deadline.filter (· ≤ after.now) = some deadline :=
        Option.filter_eq_some_iff.mpr ⟨hd, decide_eq_true hlate⟩
      rw [hm', hc', hf']
      simp only [Option.map_some, hl]

/-- What a wait comes to in a move before its deadline, by the course, is what the log decides. -/
theorem outcome?_eq_decision (hext : Extends before.log after.log)
    (hrecord : before.log.lines.toList = older ++ c.lines.map (·.2))
    (hnone : ∀ entry ∈ c.lines, w.pattern.search entry.2 = none) (hopen : c.closing = none)
    (hpast : ∀ entry ∈ c.lines, entry.1 ≤ after.now)
    (hdeadline : ∀ time, w.deadline = some time → after.now ≤ time)
    (havoid : (c.observe before after).Avoids w.deadline) :
    (c.observe before after).outcome? w older after.now =
      (w.decision after.now before.log.lines.size after.log).map fun result =>
        ⟨after.now, .result (result.map .found)⟩ := by
  have houtput : after.log.snapshot = "\n".intercalate
      (older ++ (c.observe before after).lines.map (·.2)) := by
    rw [OutputLog.snapshot, lines_observe hext hrecord]
  have hclosing : (c.observe before after).closing =
      if after.log.closed then some after.now else none := by
    rw [observe, hopen]
    rfl
  have hmatch : (c.observe before after).match? w =
      ((after.log.lines.toList.drop before.log.lines.size).map fun line =>
        (after.now, line)).findSome? (find? w) := by
    rw [match?, observe, List.findSome?_append, ← match?, match?_eq_none hnone]
    rfl
  unfold outcome? LineWait.decision
  by_cases hr : Instant.reached after.now w.deadline = true
  · -- the deadline is now, so nothing else happens
    obtain ⟨time, ht, hle⟩ := Instant.reached_eq_true_iff.mp hr
    obtain rfl : time = after.now := Nat.le_antisymm hle (hdeadline time ht)
    obtain ⟨hlines, hclosed⟩ := havoid after.now ht
    have hnews : after.log.lines.toList.drop before.log.lines.size = [] := by
      refine List.eq_nil_iff_forall_not_mem.mpr fun line hl => ?_
      exact hlines (after.now, line)
        (List.mem_append_right _ (List.mem_map_of_mem hl)) rfl
    have hstill : after.log.closed = false := by
      cases ha : after.log.closed with
      | false => rfl
      | true =>
        rw [hclosing, ha] at hclosed
        exact absurd rfl hclosed
    have hfilter : (c.observe before after).lines.filter (·.1 ≤ after.now) =
        (c.observe before after).lines := by
      refine List.filter_eq_self.mpr fun entry he => ?_
      rw [observe, hnews] at he
      simpa using hpast entry (by simpa using he)
    rw [hmatch, findSome?_of_reached hr, hclosing, hstill, hnews, ht]
    simp [Instant.reached, hfilter, houtput, Except.map]
  · replace hr : Instant.reached after.now w.deadline = false := by simpa using hr
    have hlate : w.deadline.filter (· ≤ after.now) = none := by
      rw [Option.filter_eq_none_iff]
      intro time ht
      simpa using Instant.reached_eq_false_iff.mp hr time ht
    rw [hmatch, findSome?_of_not_reached hr, hclosing, hlate]
    cases (after.log.lines.toList.drop before.log.lines.size).findSome? w.pattern.search with
    | some found => rfl
    | none =>
      have hin : (some after.now).filter (fun time => !Instant.reached time w.deadline) =
          some after.now := Option.filter_eq_some_iff.mpr ⟨rfl, by rw [hr]; rfl⟩
      cases ha : after.log.closed with
      | false => simp [hr]
      | true => simp [hin, houtput, Except.map]

theorem Avoids.of_course {moves : List (Move Command)} {t : Listeners}
    (h : (course t c moves).Avoids w.deadline) : c.Avoids w.deadline := by
  induction moves generalizing t c with
  | nil => exact h
  | cons x moves ih =>
    intro time ht
    obtain ⟨hlines, hclosing⟩ := ih h time ht
    refine ⟨fun entry he => hlines entry (List.mem_append_left _ he), fun hc => hclosing ?_⟩
    rw [observe, hc]
    rfl

end Course

structure Awaited (w : LineWait) (id : TaskId) (older : List String) (c : Course) (t : Listeners) :
    Prop where
  tidy : Tidy t
  timely : ∀ other, Timely machinery t other
  record : t.state.log.lines.toList = older ++ c.lines.map (·.2)
  closing : t.state.log.closed = c.closing.isSome
  past : ∀ entry ∈ c.lines, entry.1 ≤ t.state.now
  task : Cancelled t id ∨
    (∃ outcome, c.outcome? w older t.state.now = some outcome ∧
      t.tasks[id]? = some (.ended outcome.time outcome.ending)) ∨
    Attended w id t.state.log.lines.size t ∧ Instant.reached t.state.now w.deadline = false ∧
      t.state.log.closed = false ∧ ∀ entry ∈ c.lines, w.pattern.search entry.2 = none

namespace Awaited

variable {w : LineWait} {id : TaskId} {older : List String} {c : Course} {t : Listeners}

theorem move (h : Awaited w id older c t) (x : Move Command)
    (havoid : (c.observe t.state (move machinery t x).state).Avoids w.deadline) :
    Awaited w id older (c.observe t.state (move machinery t x).state) (move machinery t x) := by
  have hext := extension_move t x
  have hle := now_le_move h.tidy h.timely x
  refine ⟨h.tidy.move x, machinery_punctual.timely_settle _, Course.lines_observe hext h.record,
    Course.closing_observe hext h.closing, ?_, ?_⟩
  · intro entry he
    rcases List.mem_append.mp he with he | he
    · exact Nat.le_trans (h.past entry he) hle
    · obtain ⟨line, -, rfl⟩ := List.mem_map.mp he
      exact Nat.le_refl _
  · rcases h.task with ⟨time, hc⟩ | ⟨outcome, ho, ht⟩ | ⟨ha, hr, hopen, hnone⟩
    · exact .inl ⟨time, ended_play hc [x]⟩
    · exact .inr (.inl ⟨outcome, Course.outcome?_observe hext h.closing hle havoid ho,
        ended_play ht [x]⟩)
    · have hclosing : c.closing = none := by simpa [hopen] using h.closing.symm
      have hdecision := Course.outcome?_eq_decision hext h.record hnone hclosing
        (fun entry he => Nat.le_trans (h.past entry he) hle) (move_le_deadline ha hr x) havoid
      -- either the wait is cancelled, or it decides by the log as the move leaves it
      rcases ha.stir x with ⟨time, hc⟩ | hs
      · left
        exact ⟨time, ended_settle hc⟩
      · right
        have hsettled := hs.settle
        have hsame := sameRecord_move t x
        have hcongr : w.decision (Timeline.move machinery t x).state.now t.state.log.lines.size
            (Timeline.move machinery t x).state.log = _ :=
          LineWait.decision_congr hsame.lines hsame.closed
        rw [Decided, ← hsame.now, ← hcongr, ← hsame.lines] at hsettled
        cases hd : w.decision (Timeline.move machinery t x).state.now t.state.log.lines.size
            (Timeline.move machinery t x).state.log with
        | some result =>
          rw [hd] at hsettled hdecision
          exact .inl ⟨_, hdecision, hsettled⟩
        | none =>
          rw [hd] at hsettled
          obtain ⟨hnews, ho, hlate⟩ := LineWait.decision_eq_none_iff.mp hd
          refine .inr ⟨hsettled, hlate, ho, ?_⟩
          intro entry he
          rcases List.mem_append.mp he with he | he
          · exact hnone entry he
          · obtain ⟨line, hl, rfl⟩ := List.mem_map.mp he
            exact hnews line hl

theorem play (h : Awaited w id older c t) (moves : List (Move Command))
    (havoid : (course t c moves).Avoids w.deadline) :
    Awaited w id older (course t c moves) (play machinery t moves) := by
  induction moves generalizing t c with
  | nil => exact h
  | cons x moves ih =>
    have hfirst : (c.observe t.state (Timeline.move machinery t x).state).Avoids w.deadline :=
      Course.Avoids.of_course havoid
    exact ih (h.move x hfirst) havoid

theorem task_eq (h : Awaited w id older c t) (hcancel : ¬ Cancelled t id) :
    t.tasks[id]? = some (c.task w older t.state.now) := by
  unfold Course.task
  rcases h.task with hc | ⟨outcome, ho, ht⟩ | ⟨ha, hr, hopen, hnone⟩
  · exact absurd hc hcancel
  · rw [ho]
    exact ht
  · have hclosing : c.closing = none := by simpa [hopen] using h.closing.symm
    rw [Course.outcome?_eq_none hnone hclosing hr]
    exact ha.task

end Awaited

section

variable {s : Listening} {pattern : PatternText} {limit : Option Seconds} {compiled : Compiled}
  {w : LineWait}

theorem start_wait (hpattern : pattern.compile = .ok compiled)
    (hw : w = (LineWait.start compiled (limit.getD s.usualLimit) s.now s.log).2) :
    start (.wait pattern limit) s = poll w { s with log := s.log.subscribe.1 } := by
  simp only [start, hpattern, hw]
  rfl

theorem backlog_start (hb : s.log.Bounded)
    (hw : w = (LineWait.start compiled (limit.getD s.usualLimit) s.now s.log).2) :
    Backlog s.log.subscribe.1 w.queue s.log.lines.size := by
  rw [hw, LineWait.queue_start]
  exact Backlog.of_subscribe hb

theorem decision_subscribe :
    w.decision s.now s.log.lines.size s.log.subscribe.1 = w.decision s.now s.log.lines.size s.log :=
  LineWait.decision_congr (lines_subscribe _) (closed_subscribe _)

theorem progress_start_wait (hb : s.log.Bounded) (hpattern : pattern.compile = .ok compiled)
    (hw : w = (LineWait.start compiled (limit.getD s.usualLimit) s.now s.log).2) :
    (start (.wait pattern limit) s).2 = match w.decision s.now s.log.lines.size s.log with
      | some result => .done (result.map .found)
      | none => .pending w := by
  have hp := progress_poll (s := { s with log := s.log.subscribe.1 }) (backlog_start hb hw)
  rw [start_wait hpattern hw, ← decision_subscribe]
  exact hp

theorem sameRecord_start_wait (hpattern : pattern.compile = .ok compiled) :
    SameRecord s (start (.wait pattern limit) s).1 := by
  rw [start_wait hpattern rfl]
  exact ⟨rfl, (LineWait.lines_poll _ _ _).trans (lines_subscribe _),
    (LineWait.closed_poll _ _ _).trans (closed_subscribe _)⟩

end

theorem decision_begin (w : LineWait) (s : Listening) :
    w.decision s.now s.log.lines.size s.log =
      if s.log.closed then some (.error (.streamClosed w.pattern.text s.log.snapshot))
      else if Instant.reached s.now w.deadline then some (.error (w.timeoutFailure s.log.snapshot))
      else none := by
  rw [LineWait.decision, List.drop_eq_nil_of_le (by simp)]
  rfl

section

variable {t : Listeners} {step : Step Command} {pattern : PatternText} {limit : Option Seconds}
  {compiled : Compiled} {w : LineWait}

theorem sameRecord_begin (hstep : step.command? = some (.wait pattern limit))
    (hpattern : pattern.compile = .ok compiled) :
    SameRecord t.state (launch machinery t step).state := by
  rw [(launch_command (m := machinery) hstep t).1]
  exact sameRecord_start_wait hpattern

theorem task_begin (h : Tidy t) (hstep : step.command? = some (.wait pattern limit))
    (hpattern : pattern.compile = .ok compiled)
    (hw : w = (LineWait.start compiled (limit.getD t.state.usualLimit) t.state.now t.state.log).2) :
    (launch machinery t step).tasks[t.tasks.size]? =
      some (match w.decision t.state.now t.state.log.lines.size t.state.log with
      | some result => .ended t.state.now (.result (result.map .found))
      | none => .pending (.act w)) := by
  have htask : (launch machinery t step).tasks[t.tasks.size]? = some (.ofProgress
      (start (.wait pattern limit) t.state).1.now (start (.wait pattern limit) t.state).2) :=
    (launch_command (m := machinery) hstep t).2.1
  rw [htask, now_start, progress_start_wait h.bounded hpattern hw]
  cases w.decision t.state.now t.state.log.lines.size t.state.log <;> rfl

theorem ended_begin (h : Tidy t) (hstep : step.command? = some (.wait pattern limit))
    (hpattern : pattern.compile = .ok compiled)
    (hw : w = (LineWait.start compiled (limit.getD t.state.usualLimit) t.state.now t.state.log).2)
    {result : LineWait.Result}
    (hd : w.decision t.state.now t.state.log.lines.size t.state.log = some result) :
    (move machinery t (.begin step)).tasks[t.tasks.size]? =
      some (.ended t.state.now (.result (result.map .found))) := by
  have htask := task_begin h hstep hpattern hw
  rw [hd] at htask
  exact ended_settle htask

theorem attended_begin (h : Tidy t) (hstep : step.command? = some (.wait pattern limit))
    (hpattern : pattern.compile = .ok compiled)
    (hw : w = (LineWait.start compiled (limit.getD t.state.usualLimit) t.state.now t.state.log).2)
    (hd : w.decision t.state.now t.state.log.lines.size t.state.log = none) :
    Attended w t.tasks.size t.state.log.lines.size (launch machinery t step) := by
  obtain ⟨hstate, -, hacts⟩ := launch_command (m := machinery) hstep t
  change (launch machinery t step).state = (start (.wait pattern limit) t.state).1 at hstate
  have htask := task_begin h hstep hpattern hw
  rw [hd] at htask
  refine ⟨htask, ?_, fun other v hne hv => ?_⟩
  · rw [hstate, start_wait hpattern hw]
    have hheard := LineWait.backlog_poll_self (backlog_start h.bounded hw)
      (decision_subscribe.trans hd)
    rwa [lines_subscribe] at hheard
  · have hlt := h.waits other v ((hacts other v hv).resolve_right hne)
    rw [hw, LineWait.queue_start]
    exact Nat.ne_of_lt hlt

theorem awaited_begin (h : Tidy t) (hstep : step.command? = some (.wait pattern limit))
    (hpattern : pattern.compile = .ok compiled)
    (hw : w = (LineWait.start compiled (limit.getD t.state.usualLimit) t.state.now t.state.log).2)
    (hopen : t.state.log.closed = false) :
    Awaited w t.tasks.size t.state.log.lines.toList {} (move machinery t (.begin step)) := by
  have hsame : SameRecord t.state (launch machinery t step).state :=
    sameRecord_begin hstep hpattern
  have hmoved : SameRecord t.state (move machinery t (.begin step)).state := hsame.settle
  have hdecision := decision_begin w t.state
  rw [hopen, if_neg Bool.false_ne_true] at hdecision
  refine ⟨h.move _, machinery_punctual.timely_settle _, ?_, ?_, fun entry he => (nomatch he),
    .inr ?_⟩
  · rw [hmoved.lines]
    simp
  · rw [hmoved.closed, hopen]
    rfl
  · cases hr : Instant.reached t.state.now w.deadline with
    | true =>
      rw [hr, if_pos rfl] at hdecision
      have hdeadline : w.deadline = some t.state.now := by
        obtain ⟨time, ht, hle⟩ := Instant.reached_eq_true_iff.mp hr
        have hlimit : (limit.getD t.state.usualLimit).deadline t.state.now = some time := by
          rw [hw] at ht
          exact ht
        obtain ⟨span, -, rfl⟩ := Option.map_eq_some_iff.mp hlimit
        rw [ht, Nat.le_antisymm hle (Nat.le_add_right _ _)]
      refine .inl ⟨⟨t.state.now, .result (.error (w.timeoutFailure t.state.log.snapshot))⟩, ?_,
        ended_begin h hstep hpattern hw hdecision⟩
      rw [hmoved.now]
      simp [Course.outcome?, Course.match?, hdeadline, OutputLog.snapshot]
    | false =>
      rw [hr, if_neg Bool.false_ne_true] at hdecision
      have hsettled := (attended_begin h hstep hpattern hw hdecision).settle
      rw [Decided, hsame.now, LineWait.decision_congr hsame.lines hsame.closed, hdecision]
        at hsettled
      refine .inr ⟨?_, hmoved.now.symm ▸ hr, hmoved.closed.trans hopen, fun entry he =>
        (nomatch he)⟩
      rw [hmoved.lines]
      exact hsame.lines ▸ hsettled

end

def Keeps (w : LineWait) (id : TaskId) (t : Listeners) : Prop :=
  t.tasks[id]? = some (.pending (.act w)) ∨ ∃ time ending, t.tasks[id]? = some (.ended time ending)

namespace Keeps

variable {w : LineWait} {id : TaskId} {t : Listeners}

theorem launch (h : Keeps w id t) (step : Step Command) : Keeps w id (launch machinery t step) := by
  have hpush : ∀ (t : Listeners) (task : Task LineWait Result), Keeps w id t →
      Keeps w id (t.push task).1 := by
    rintro t task (h | ⟨time, ending, h⟩)
    · exact .inl ((push_of_lt (Array.getElem?_eq_some_iff.mp h).1).trans h)
    · exact .inr ⟨time, ending, (push_of_lt (Array.getElem?_eq_some_iff.mp h).1).trans h⟩
  refine launch_induction (m := machinery) (P := Keeps w id) (fun t task _ h => hpush t task h)
    (fun _ _ h => h) ?_ (fun t command h => hpush { t with state := _ } _ h) h step
  rintro t victim (h | ⟨time, ending, h⟩)
  · by_cases hid : victim = id
    · subst hid
      exact .inr ⟨_, _, cancelTask_pending h⟩
    · exact .inl ((cancelTask_of_ne hid).trans h)
  · exact .inr ⟨time, ending, ended_cancelTask h⟩

theorem pollTask (h : Keeps w id t) (polled : TaskId) :
    Keeps w id (pollTask machinery t polled) := by
  rcases h with h | ⟨time, ending, h⟩
  · by_cases hid : polled = id
    · subst hid
      obtain ⟨-, htask⟩ := pollTask_pending (m := machinery) h
      have hp : (Timeline.pollTask machinery t polled).tasks[polled]? =
          some (.ofProgress t.state.now (poll w t.state).2) := htask
      cases hrest : (poll w t.state).2 with
      | pending rest =>
        obtain ⟨rfl, -⟩ := pending_poll hrest
        rw [hrest] at hp
        exact .inl hp
      | done result =>
        rw [hrest] at hp
        exact .inr ⟨_, _, hp⟩
    · exact .inl ((pollTask_of_ne hid).trans h)
  · exact .inr ⟨time, ending, ended_pollTask h⟩

theorem later {u : Listeners} (h : Keeps w id t) (hlater : Later machinery t u) : Keeps w id u :=
  Later.induction (P := Keeps w id) (fun _ step h => h.launch step) (fun _ _ h => h) (fun _ h => h)
    (fun _ h => h) (fun _ polled h => h.pollTask polled) h hlater

/-- While a wait with a deadline is under way the clock goes on, until the wait has ended. -/
theorem ends (h : Keeps w id t) {deadline : Instant} (hd : w.deadline = some deadline)
    (htidy : Tidy t) (htimely : ∀ other, Timely machinery t other) :
    ∃ count time ending,
      (play machinery t (List.replicate count .tick)).tasks[id]? = some (.ended time ending) := by
  rcases h with h | ⟨time, ending, h⟩
  · -- by induction on how far the deadline is
    obtain ⟨k, hk⟩ : ∃ k, deadline - t.state.now ≤ k := ⟨_, Nat.le_refl _⟩
    induction k generalizing t with
    | zero =>
      have hle : deadline ≤ t.state.now := Nat.sub_eq_zero_iff_le.mp (Nat.le_zero.mp hk)
      exact absurd (htimely id _ h deadline hd) (Nat.not_lt.mpr hle)
    | succ k ih =>
      have hlt : t.state.now < deadline := htimely id _ h deadline hd
      have hforward : t.state.now < (Timeline.move machinery t .tick).state.now := by
        rw [(sameRecord_move t .tick).now]
        obtain ⟨next, -, hn⟩ := nextMoment_le (m := machinery) (.inr ⟨id, _, h, hd⟩)
        have hnext := now_lt_nextMoment htidy htimely hn
        simp only [stir, hn]
        exact (now_advance t.state next).symm ▸ hnext
      have hkeeps : Keeps w id (Timeline.move machinery t .tick) :=
        (Keeps.later (.inl h)) (Later.refl.stir .tick).settle
      rcases hkeeps with h' | ⟨time, ending, h'⟩
      · obtain ⟨count, time, ending, he⟩ := ih (htidy.move .tick)
          (machinery_punctual.timely_settle _) h'
          (Nat.le_of_lt_succ (Nat.lt_of_lt_of_le (Nat.sub_lt_sub_left hlt hforward) hk))
        exact ⟨count + 1, time, ending, he⟩
      · exact ⟨1, time, ending, h'⟩
  · exact ⟨0, time, ending, h⟩

end Keeps

end Overseer.Listening
