import Overseer.Proofs.Listening.LogRuns

/-!
# One wait less

Two runs of a log are compared in which the same is done at the same times, but for one wait that is
left out of the second. They need not move their clocks alike: the one that has the wait stops at
its deadline, too. Still the logs get the same lines at the same times and close at the same time,
and every other wait comes to the same end at the same time (`waits_apart`).
-/

namespace Overseer.Listening

open Number OutputLog Timeline

def Event.renumbered (gone : Nat) : Event → Event
  | .deed (.cancel call) => .deed (.cancel (renumber gone call))
  | e => e

theorem renumber_inj {gone k l : Nat} (hk : k ≠ gone) (hl : l ≠ gone)
    (h : renumber gone k = renumber gone l) : k = l := by
  unfold renumber at h
  split at h <;> split at h <;> omega

theorem renumber_succ {gone n : Nat} (h : n ≠ gone) :
    renumber gone (n + 1) = renumber gone n + 1 := by
  unfold renumber
  split <;> split <;> omega

/-- A log and one without one of its calls: they hold the same and are to get the same, and all
other calls fare alike. Their clocks may differ. -/
structure Twin (commands : List Command) (gone : Nat) (t u : Listeners) : Prop where
  tidy : Tidy t
  tidyTwin : Tidy u
  log : SameLog t.state u.state
  size : u.tasks.size = renumber gone t.tasks.size
  alike : ∀ k < t.tasks.size, k ≠ gone → Alike commands k (renumber gone k) t u

/-- What an event leaves of a log and of some of its calls: everything, but for the clock. -/
structure Spares (p : TaskId → Prop) (t u : Listeners) : Prop where
  tidy : Tidy u
  log : SameLog t.state u.state
  ended : ∀ k, p k → ∀ {time ending}, t.tasks[k]? = some (.ended time ending) →
    u.tasks[k]? = some (.ended time ending)
  waits : ∀ k, p k → ∀ {w}, Waits w k t → Waits w k u

/-- Up to a moment nothing comes to a log, and some of its waits do not run out. -/
structure Calm (p : TaskId → Prop) (t : Listeners) (moment : Instant) : Prop where
  ahead : ∀ entry ∈ t.state.coming, moment < entry.1
  waits : ∀ k, p k → ∀ {w}, Waits w k t → Instant.reached moment w.deadline = false

namespace Calm

variable {p : TaskId → Prop} {t : Listeners} {moment next : Instant}

theorem mono (h : Calm p t next) (hle : moment ≤ next) : Calm p t moment :=
  ⟨fun entry he => Nat.lt_of_le_of_lt hle (h.ahead entry he), fun k hk _ hw =>
    Instant.reached_eq_false_iff.mpr fun d hd => Nat.lt_of_le_of_lt hle
      (Instant.reached_eq_false_iff.mp (h.waits k hk hw) d hd)⟩

theorem now (h : Tidy t) : Calm p t t.state.now := ⟨h.ahead, fun _ _ _ hw => hw.not_reached⟩

theorem of_lt (h : Tidy t) (hnext : ∀ later, nextMoment machinery t = some later → next ≤ later)
    (hlt : moment < next) : Calm p t moment := by
  refine ⟨fun entry he => ?_, fun k _ w hw => Instant.reached_eq_false_iff.mpr fun d hd => ?_⟩
  · obtain ⟨first, hfirst⟩ : ∃ first, t.state.coming.head? = some first :=
      Option.isSome_iff_exists.mp (by cases hc : t.state.coming <;> simp_all)
    obtain ⟨rest, hrest⟩ := List.head?_eq_some_iff.mp hfirst
    have hle : first.1 ≤ entry.1 := by
      have hsorted := h.sorted
      rw [hrest] at hsorted he
      rcases List.mem_cons.mp he with rfl | he
      · exact Nat.le_refl _
      · exact (List.pairwise_cons.mp hsorted).1 entry he
    have hchange : machinery.nextChange t.state = some first.1 := by
      change t.state.coming.head?.map (·.1) = _
      rw [hfirst]
      rfl
    obtain ⟨later, hlater, hn⟩ := nextMoment_le (m := machinery) (.inl hchange)
    exact Nat.lt_of_lt_of_le hlt (Nat.le_trans (hnext later hn) (Nat.le_trans hlater hle))
  · obtain ⟨later, hlater, hn⟩ := nextMoment_le (m := machinery) (.inr ⟨k, _, hw.attended.task, hd⟩)
    exact Nat.lt_of_lt_of_le hlt (Nat.le_trans (hnext later hn) hlater)

theorem spares (h : Calm p t moment) (htidy : Tidy t) : Spares p t (happen t (.pass moment)) := by
  have hlog : SameLog t.state (strike t (.pass moment)).state := .advance_of_idle h.ahead
  refine ⟨(tidy_strike htidy _).settle, hlog.trans (.settle _), fun k _ _ _ ht => ended_settle ht,
    fun k hk w hw => hw.happen (hw.attended.advance moment) hlog ?_⟩
  change Instant.reached (t.state.advance moment).now w.deadline = false
  rw [now_advance]
  exact h.waits k hk hw

end Calm

/-- The beginning of a wait adds nothing to a log, and neither does a cancellation. -/
theorem sameLog_strike (t : Listeners) {deed : Deed}
    (h : (∃ pattern limit, deed = .call (.wait pattern limit)) ∨ ∃ call, deed = .cancel call) :
    SameLog t.state (strike t (.deed deed)).state := by
  rcases h with ⟨pattern, limit, rfl⟩ | ⟨call, rfl⟩
  · exact .start_wait t.state pattern limit
  · exact .cancelTask t call

theorem sameLog_happen (t : Listeners) {deed : Deed}
    (h : (∃ pattern limit, deed = .call (.wait pattern limit)) ∨ ∃ call, deed = .cancel call) :
    SameLog t.state (happen t (.deed deed)).state := (sameLog_strike t h).trans (.settle _)

namespace Twin

variable {commands : List Command} {gone : Nat} {t u v : Listeners} {moment : Instant}

/-- What the first log goes through alone, as far as it spares the other calls, leaves it beside its
twin. -/
theorem left (h : Twin commands gone t u) (hs : Spares (· ≠ gone) t v)
    (hsize : renumber gone v.tasks.size = renumber gone t.tasks.size)
    (hold : ∀ k < v.tasks.size, k ≠ gone → k < t.tasks.size) : Twin commands gone v u := by
  refine ⟨hs.tidy, h.tidyTwin, hs.log.symm.trans h.log, h.size.trans hsize.symm, fun k hk hne => ?_⟩
  cases h.alike k (hold k hk hne) hne with
  | ended hone hother hsame => exact .ended (hs.ended k hne hone) hother hsame
  | waiting hone hother => exact .waiting (hs.waits k hne hone) hother

theorem right (h : Twin commands gone t u) (hs : Spares (fun _ => True) u v)
    (hsize : v.tasks.size = u.tasks.size) : Twin commands gone t v := by
  refine ⟨h.tidy, hs.tidy, h.log.trans hs.log, hsize.trans h.size, fun k hk hne => ?_⟩
  cases h.alike k hk hne with
  | ended hone hother hsame => exact .ended hone (hs.ended _ trivial hother) hsame
  | waiting hone hother => exact .waiting hone (hs.waits _ trivial hother)

theorem origin (h : Twin commands gone t u) {l : Nat} (hl : l < u.tasks.size) :
    ∃ k < t.tasks.size, k ≠ gone ∧ renumber gone k = l := by
  have hsize := h.size
  unfold renumber at hsize ⊢
  by_cases hlt : l < gone
  · refine ⟨l, ?_, ?_, if_neg (by omega)⟩
    · split at hsize <;> omega
    · omega
  · refine ⟨l + 1, ?_, ?_, if_pos (by omega)⟩
    · split at hsize <;> omega
    · omega

theorem calm_iff (h : Twin commands gone t u) :
    Calm (· ≠ gone) t moment ↔ Calm (fun _ => True) u moment := by
  have htasks : ∀ {x y : Task LineWait Result} {v : Listeners} {l : TaskId},
      v.tasks[l]? = some x → v.tasks[l]? = some y → x = y := fun hx hy =>
    Option.some.inj (hx.symm.trans hy)
  constructor
  · intro hc
    refine ⟨fun entry he => hc.ahead entry (h.log.coming ▸ he), fun l _ v hv => ?_⟩
    obtain ⟨k, hk, hne, rfl⟩ := h.origin (Array.getElem?_eq_some_iff.mp hv.attended.task).1
    cases h.alike k hk hne with
    | ended _ hother _ => cases htasks hother hv.attended.task
    | waiting hone hother =>
      cases htasks hother.attended.task hv.attended.task
      have hcalm := hc.waits k hne hone
      exact hcalm
  · intro hc
    refine ⟨fun entry he => hc.ahead entry (h.log.coming.symm ▸ he), fun k hne w hw => ?_⟩
    have hk := (Array.getElem?_eq_some_iff.mp hw.attended.task).1
    cases h.alike k hk hne with
    | ended hone _ _ => cases htasks hone hw.attended.task
    | waiting hone hother =>
      cases htasks hone.attended.task hw.attended.task
      have hcalm := hc.waits _ trivial hother
      exact hcalm

structure Abreast (commands : List Command) (gone : Nat) (t u : Listeners) : Prop where
  now : u.state.now = t.state.now
  log : SameLog t.state u.state
  size : u.tasks.size = renumber gone t.tasks.size
  poised : ∀ k < t.tasks.size, k ≠ gone → Poised commands k (renumber gone k) t u

theorem Abreast.settle (h : Abreast commands gone t u) (htidy : Tidy t) (htwin : Tidy u) :
    Twin commands gone (t.settle machinery) (u.settle machinery) where
  tidy := htidy.settle
  tidyTwin := htwin.settle
  log := (SameLog.settle _).symm.trans (h.log.trans (.settle _))
  size := (size_settle _).trans (h.size.trans (congrArg _ (size_settle _).symm))
  alike k hk hne := (h.poised k (hk.trans_eq (size_settle _)) hne).settle h.log h.now

theorem abreast_pass (h : Twin commands gone t u) (moment : Instant) :
    Abreast commands gone (strike t (.pass moment)) (strike u (.pass moment)) := by
  have hheard : u.state.log.lines.size = t.state.log.lines.size :=
    congrArg Array.size h.log.lines
  refine ⟨?_, h.log.advance moment, h.size, fun k hk hne => ?_⟩
  · exact (now_advance u.state moment).trans (now_advance t.state moment).symm
  · cases h.alike k hk hne with
    | ended hone hother hsame => exact .ended hone hother hsame
    | waiting hone hother =>
      exact .attended (hone.attended.advance moment) (hheard ▸ hother.attended.advance moment)

/-- A call is cancelled on both: it ends at the same time, and the others go on. -/
theorem abreast_cancel (h : Twin commands gone t u) (hnow : u.state.now = t.state.now)
    {call : TaskId} (hcall : call ≠ gone) :
    Abreast commands gone (strike t (.deed (.cancel call)))
      (strike u (.deed (.cancel (renumber gone call)))) := by
  have hheard : u.state.log.lines.size = t.state.log.lines.size :=
    congrArg Array.size h.log.lines
  refine ⟨?_, ?_, ?_, fun k hk hne => ?_⟩
  · exact (now_cancelTask u _).trans (hnow.trans (now_cancelTask t call).symm)
  · exact (SameLog.cancelTask t call).symm.trans (h.log.trans (.cancelTask u _))
  · exact (size_cancelTask u _).trans (h.size.trans (congrArg _ (size_cancelTask t call).symm))
  · cases h.alike k (hk.trans_eq (size_cancelTask t call)) hne with
    | ended hone hother hsame =>
      exact .ended (ended_cancelTask hone) (ended_cancelTask hother) hsame
    | waiting hone hother =>
      by_cases hkc : k = call
      · subst hkc
        have hend := cancelTask_pending (m := machinery) hother.attended.task
        rw [show machinery.now u.state = machinery.now t.state from hnow] at hend
        exact .ended (cancelTask_pending hone.attended.task) hend fun _ => rfl
      · have hne' : renumber gone call ≠ renumber gone k := fun he =>
          hkc (renumber_inj hcall hne he).symm
        exact .attended (hone.attended.cancelTask (Ne.symm hkc))
          (hheard ▸ hother.attended.cancelTask hne')

theorem abreast_call (h : Twin commands gone t u) (hnow : u.state.now = t.state.now)
    {command : Command} (hcommand : commands[t.tasks.size]? = some command)
    (hgone : t.tasks.size ≠ gone) :
    Abreast commands gone (strike t (.deed (.call command)))
      (strike u (.deed (.call command))) := by
  have hheard : u.state.log.lines.size = t.state.log.lines.size :=
    congrArg Array.size h.log.lines
  have hsize : ∀ t : Listeners,
      (launch machinery t (.act command)).tasks.size = t.tasks.size + 1 := fun t =>
    Array.size_push _
  refine ⟨?_, h.log.start command, ?_, fun k hk hne => ?_⟩
  · exact (now_start command u.state).trans (hnow.trans (now_start command t.state).symm)
  · refine (hsize u).trans ?_
    rw [h.size, ← renumber_succ hgone]
    exact congrArg _ (hsize t).symm
  · rcases Nat.lt_succ_iff_lt_or_eq.mp (hk.trans_eq (hsize t)) with hlt | rfl
    · cases h.alike k hlt hne with
      | ended hone hother hsame =>
        have hlater : ∀ t : Listeners, Later machinery t (launch machinery t (.act command)) :=
          fun t => .launch _ .refl
        have hone' := ended_later hone (hlater t)
        have hother' := ended_later hother (hlater u)
        exact .ended hone' hother' hsame
      | waiting hone hother =>
        exact .attended (hone.attended.launch_act command)
          (hheard ▸ hother.attended.launch_act command)
    · exact h.size ▸ poised_launch h.tidy h.tidyTwin h.log hnow hcommand

/-- What is done with both logs at the same time, and the time that passes for both, leaves them
twins. -/
theorem together (h : Twin commands gone t u) {e : Event}
    (hnow : ∀ deed, e = .deed deed → u.state.now = t.state.now)
    (hcommand : ∀ command, e = .deed (.call command) →
      commands[t.tasks.size]? = some command ∧ t.tasks.size ≠ gone)
    (hcancel : e ≠ .deed (.cancel gone)) :
    Twin commands gone (happen t e) (happen u (e.renumbered gone)) := by
  have habreast : Abreast commands gone (strike t e) (strike u (e.renumbered gone)) := by
    cases e with
    | pass moment => exact h.abreast_pass moment
    | deed deed =>
      cases deed with
      | cancel call => exact h.abreast_cancel (hnow _ rfl) fun he => hcancel (he ▸ rfl)
      | call command =>
        obtain ⟨hnext, hgone⟩ := hcommand command rfl
        exact h.abreast_call (hnow _ rfl) hnext hgone
  exact habreast.settle (tidy_strike h.tidy e) (tidy_strike h.tidyTwin _)

theorem begun (h : Twin commands t.tasks.size t u) (pattern : PatternText)
    (limit : Option Seconds) :
    Twin commands t.tasks.size (happen t (.deed (.call (.wait pattern limit)))) u := by
  have hlog := sameLog_strike t (.inl ⟨pattern, limit, rfl⟩)
  have hsize : (happen t (.deed (.call (.wait pattern limit)))).tasks.size = t.tasks.size + 1 :=
    (size_settle _).trans (Array.size_push _)
  have hlater : Later machinery t (launch machinery t (.act (.wait pattern limit))) :=
    .launch _ .refl
  refine h.left ⟨(tidy_strike h.tidy _).settle, hlog.trans (.settle _), ?_, ?_⟩ ?_ ?_
  · exact fun k _ _ _ hk => ended_later hk hlater.settle
  · intro k _ w hw
    refine hw.happen (hw.attended.launch_act _) hlog ?_
    have hnow : (strike t (.deed (.call (.wait pattern limit)))).state.now = t.state.now :=
      now_start (.wait pattern limit) t.state
    rw [hnow]
    exact hw.not_reached
  · rw [hsize]
    unfold renumber
    split <;> split <;> omega
  · intro k hk hne
    rw [hsize] at hk
    exact Nat.lt_of_le_of_ne (Nat.le_of_lt_succ hk) hne

theorem cancelled (h : Twin commands gone t u) :
    Twin commands gone (happen t (.deed (.cancel gone))) u := by
  have hlog := sameLog_strike t (.inr ⟨gone, rfl⟩)
  have hsize : (happen t (.deed (.cancel gone))).tasks.size = t.tasks.size :=
    (size_settle _).trans (size_cancelTask t gone)
  refine h.left ⟨(tidy_strike h.tidy _).settle, hlog.trans (.settle _), ?_, ?_⟩ ?_ ?_
  · exact fun k _ _ _ hk => ended_settle (ended_cancelTask hk)
  · intro k hne w hw
    refine hw.happen (hw.attended.cancelTask (Ne.symm hne)) hlog ?_
    have hnow : (strike t (.deed (.cancel gone))).state.now = t.state.now := now_cancelTask t gone
    rw [hnow]
    exact hw.not_reached
  · rw [hsize]
  · exact fun k hk _ => hk.trans_eq hsize

end Twin

section

variable {t u : Listeners} {c : Course} {es fs : List Event}

theorem Course.observe_still {before after : Listening}
    (hlines : after.log.lines = before.log.lines) (hclosed : after.log.closed = before.log.closed)
    (hclosing : before.log.closed = c.closing.isSome) : c.observe before after = c := by
  cases hc : before.log.closed with
  | true =>
    exact Course.observe_of_closed (.of_eq hlines hclosed) hc hclosing
  | false =>
    have hnone : c.closing = none := by simpa [hc] using hclosing.symm
    cases c with
    | mk lines closing =>
      obtain rfl : closing = none := hnone
      simp [Course.observe, hlines, hclosed, hc]

theorem SameLog.observe {s s' u u' : Listening} (h : SameLog s u) (h' : SameLog s' u')
    (hnow : u'.now = s'.now) (c : Course) : c.observe u u' = c.observe s s' := by
  simp only [Course.observe, h.lines, h'.lines, h'.closed, hnow]

/-- After a moment of a run at which time has passed nothing is done before it. -/
theorem le_of_pass {moment : Instant} (h : Steady t (.pass moment :: es)) :
    (∀ d ∈ deeds t (.pass moment :: es), moment ≤ d.1) ∧
      moment ≤ (after t (.pass moment :: es)).state.now := by
  constructor
  · intro d hd
    have hle := now_le_of_mem_deeds h.2 hd
    rwa [now_pass] at hle
  · have hle := now_le_after h.2
    rwa [now_pass] at hle

end

/-- The command that is called next is known, and so are those after it. -/
theorem called_next {t : Listeners} {commands : List Command} {command : Command} {es : List Event}
    (h : calls (deeds t (.deed (.call command) :: es)) = commands.drop t.tasks.size) :
    commands[t.tasks.size]? = some command ∧
      calls (deeds (happen t (.deed (.call command))) es) = commands.drop (t.tasks.size + 1) := by
  have hcalled : command :: calls (deeds (happen t (.deed (.call command))) es) =
    commands.drop t.tasks.size := h
  have hlt : t.tasks.size < commands.length := by
    refine Nat.lt_of_not_le fun hle => ?_
    rw [List.drop_eq_nil_of_le hle] at hcalled
    cases hcalled
  rw [List.drop_eq_getElem_cons hlt] at hcalled
  obtain ⟨hfirst, hrest⟩ := List.cons.inj hcalled
  exact ⟨by rw [List.getElem?_eq_getElem hlt, hfirst], hrest⟩

/-- Two runs of twins that go on doing the same, but for the call that is left out of the second,
and that come to an end at the same time. -/
structure Parallel (commands : List Command) (gone : Nat) (t u : Listeners) (es fs : List Event) :
    Prop where
  twin : Twin commands gone t u
  steady : Steady t es
  steadyTwin : Steady u fs
  called : calls (deeds t es) = commands.drop t.tasks.size
  done : deeds u fs = without gone t.tasks.size (deeds t es)
  stop : (after u fs).state.now = (after t es).state.now

structure Agree (commands : List Command) (gone : Nat) (t u : Listeners) (es fs : List Event) :
    Prop where
  twin : Twin commands gone (after t es) (after u fs)
  record : ∀ c : Course, t.state.log.closed = c.closing.isSome → record u c fs = record t c es

section

variable {commands : List Command} {gone : Nat} {t u : Listeners} {e f : Event}
  {es fs : List Event} {moment : Instant} {command : Command}

theorem Agree.left (h : Agree commands gone (happen t e) u es fs)
    (hlog : SameLog t.state (happen t e).state) : Agree commands gone t u (e :: es) fs := by
  refine ⟨h.twin, fun c hc => ?_⟩
  rw [Overseer.Listening.record, Course.observe_still hlog.lines hlog.closed hc]
  exact h.record c (hlog.closed.trans hc)

theorem Agree.right (h : Agree commands gone t (happen u f) es fs) (htwin : SameLog t.state u.state)
    (hlog : SameLog u.state (happen u f).state) : Agree commands gone t u es (f :: fs) := by
  refine ⟨h.twin, fun c hc => ?_⟩
  have hopen := htwin.closed.trans hc
  rw [Overseer.Listening.record, Course.observe_still hlog.lines hlog.closed hopen]
  exact h.record c hc

theorem Agree.both (h : Agree commands gone (happen t e) (happen u f) es fs)
    (hbefore : SameLog t.state u.state) (hafter : SameLog (happen t e).state (happen u f).state)
    (hnow : (happen u f).state.now = (happen t e).state.now) :
    Agree commands gone t u (e :: es) (f :: fs) := by
  refine ⟨h.twin, fun c hc => ?_⟩
  rw [Overseer.Listening.record, Overseer.Listening.record, hbefore.observe hafter hnow]
  exact h.record _ (Course.closing_observe (extension_happen t e) hc)

theorem lt_of_not_calm {p : TaskId → Prop} (h : Tidy t) (hc : ¬ Calm p t moment) :
    t.state.now < moment :=
  Nat.lt_of_not_le fun hle => hc ((Calm.now h).mono hle)

namespace Parallel

theorem passLeft (h : Parallel commands gone t u (.pass moment :: es) fs)
    (hc : Calm (· ≠ gone) t moment) : Parallel commands gone (happen t (.pass moment)) u es fs where
  twin := h.twin.left (hc.spares h.twin.tidy) (by rw [happen, size_settle]; rfl)
    fun k hk _ => hk.trans_eq (size_settle _)
  steady := h.steady.2
  steadyTwin := h.steadyTwin
  called := by
    rw [happen, size_settle]
    exact h.called
  done := by
    rw [happen, size_settle]
    exact h.done
  stop := h.stop

theorem passRight (h : Parallel commands gone t u es (.pass moment :: fs))
    (hc : Calm (fun _ => True) u moment) :
    Parallel commands gone t (happen u (.pass moment)) es fs where
  twin := h.twin.right (hc.spares h.twin.tidyTwin) (size_settle _)
  steady := h.steady
  steadyTwin := h.steadyTwin.2
  called := h.called
  done := h.done
  stop := h.stop

theorem passBoth (h : Parallel commands gone t u (.pass moment :: es) (.pass moment :: fs)) :
    Parallel commands gone (happen t (.pass moment)) (happen u (.pass moment)) es fs where
  twin := h.twin.together (e := .pass moment) nofun nofun nofun
  steady := h.steady.2
  steadyTwin := h.steadyTwin.2
  called := by
    rw [happen, size_settle]
    exact h.called
  done := by
    have hsize : (happen t (.pass moment)).tasks.size = t.tasks.size := size_settle _
    rw [hsize]
    exact h.done
  stop := h.stop

theorem callLeft {pattern : PatternText} {limit : Option Seconds}
    (h : Parallel commands gone t u (.deed (.call command) :: es) fs) (hsize : t.tasks.size = gone)
    (hgone : commands[gone]? = some (.wait pattern limit)) :
    command = .wait pattern limit ∧
      Parallel commands gone (happen t (.deed (.call command))) u es fs := by
  subst hsize
  obtain ⟨hcommand, hcalled⟩ := called_next h.called
  obtain rfl : command = .wait pattern limit := Option.some.inj (hcommand.symm.trans hgone)
  refine ⟨rfl, h.twin.begun pattern limit, h.steady, h.steadyTwin, ?_, ?_, h.stop⟩
  · rw [size_call]
    exact hcalled
  · rw [size_call, h.done, deeds, without, if_pos rfl]

theorem cancelLeft (h : Parallel commands gone t u (.deed (.cancel gone) :: es) fs) :
    Parallel commands gone (happen t (.deed (.cancel gone))) u es fs := by
  refine ⟨h.twin.cancelled, h.steady, h.steadyTwin, ?_, ?_, h.stop⟩
  · rw [size_cancel]
    exact h.called
  · rw [size_cancel, h.done, deeds, without, if_pos rfl]

theorem callBoth (h : Parallel commands gone t u (.deed (.call command) :: es)
      (.deed (.call command) :: fs)) (hnow : u.state.now = t.state.now)
    (hsize : t.tasks.size ≠ gone) :
    Parallel commands gone (happen t (.deed (.call command))) (happen u (.deed (.call command))) es
      fs := by
  obtain ⟨hcommand, hcalled⟩ := called_next h.called
  refine ⟨h.twin.together (e := .deed (.call command)) (fun _ _ => hnow) ?_ nofun, h.steady,
    h.steadyTwin, ?_, ?_, h.stop⟩
  · rintro other he
    obtain rfl : command = other := by simpa using he
    exact ⟨hcommand, hsize⟩
  · rw [size_call]
    exact hcalled
  · have hdone := h.done
    rw [deeds, deeds, without, if_neg hsize] at hdone
    rw [size_call]
    exact (List.cons.inj hdone).2

theorem cancelBoth {call : TaskId} (h : Parallel commands gone t u (.deed (.cancel call) :: es)
      (.deed (.cancel (renumber gone call)) :: fs)) (hnow : u.state.now = t.state.now)
    (hcall : call ≠ gone) :
    Parallel commands gone (happen t (.deed (.cancel call)))
      (happen u (.deed (.cancel (renumber gone call)))) es fs := by
  refine ⟨h.twin.together (e := .deed (.cancel call)) (fun _ _ => hnow) nofun ?_, h.steady,
    h.steadyTwin, ?_, ?_, h.stop⟩
  · intro he
    exact hcall (by simpa using he)
  · rw [size_cancel]
    exact h.called
  · have hdone := h.done
    rw [deeds, deeds, without, if_neg hcall] at hdone
    rw [size_cancel]
    exact (List.cons.inj hdone).2

abbrev Stuck (u : Listeners) (fs : List Event) : Prop :=
  ¬ ∃ moment rest, fs = .pass moment :: rest ∧ Calm (fun _ => True) u moment

/-- What is done with the first log the twin does next, at the same time. -/
theorem meet (h : Parallel commands gone t u es fs) (hstuck : Stuck u fs) {deed : Deed}
    {rest : List (Instant × Deed)} (hd : deeds u fs = (t.state.now, deed) :: rest) :
    ∃ gs, fs = .deed deed :: gs ∧ u.state.now = t.state.now := by
  cases fs with
  | nil => cases hd
  | cons f fs =>
    cases f with
    | deed other =>
      obtain ⟨hfirst, -⟩ := List.cons.inj hd
      obtain ⟨hnow, rfl⟩ := Prod.mk.inj hfirst
      exact ⟨fs, rfl, hnow⟩
    | pass moment =>
      have hcalm : ¬ Calm (· ≠ gone) t moment := fun hc =>
        hstuck ⟨moment, fs, rfl, h.twin.calm_iff.mp hc⟩
      have hlt := lt_of_not_calm h.twin.tidy hcalm
      have hle := (le_of_pass h.steadyTwin).1 _ (hd ▸ List.mem_cons_self)
      exact absurd hle (Nat.not_le.mpr hlt)

/-- Where the time of neither passes in calm it passes for both up to the same moment. -/
theorem keepStep (h : Parallel commands gone t u (.pass moment :: es) fs)
    (hcalm : ¬ Calm (· ≠ gone) t moment) (hstuck : Stuck u fs) : ∃ gs, fs = .pass moment :: gs := by
  have hcalm' : ¬ Calm (fun _ => True) u moment := fun hc => hcalm (h.twin.calm_iff.mpr hc)
  have hlt := lt_of_not_calm h.twin.tidyTwin hcalm'
  obtain ⟨hdeeds, hstop⟩ := le_of_pass h.steady
  cases fs with
  | nil => exact absurd (hstop.trans_eq h.stop.symm) (Nat.not_le.mpr hlt)
  | cons f fs =>
    cases f with
    | deed deed =>
      have hmem : (u.state.now, deed) ∈ without gone t.tasks.size (deeds t (.pass moment :: es)) :=
        h.done ▸ List.mem_cons_self
      obtain ⟨other, hother⟩ := mem_without hmem
      exact absurd (hdeeds _ hother) (Nat.not_le.mpr hlt)
    | pass next =>
      refine ⟨fs, ?_⟩
      rcases Nat.lt_trichotomy next moment with hless | rfl | hless
      · have hc : Calm (· ≠ gone) t next := .of_lt h.twin.tidy h.steady.1.2 hless
        exact absurd ⟨next, fs, rfl, h.twin.calm_iff.mp hc⟩ hstuck
      · rfl
      · exact absurd (Calm.of_lt h.twin.tidyTwin h.steadyTwin.1.2 hless) hcalm'

/-- When nothing more is done with the first log, nothing more happens to the twin. -/
theorem finished (h : Parallel commands gone t u [] fs) (hstuck : Stuck u fs) : fs = [] := by
  cases fs with
  | nil => rfl
  | cons f fs =>
    cases f with
    | deed deed => cases h.done
    | pass moment =>
      have hcalm : ¬ Calm (· ≠ gone) t moment := fun hc =>
        hstuck ⟨moment, fs, rfl, h.twin.calm_iff.mp hc⟩
      have hlt := lt_of_not_calm h.twin.tidy hcalm
      exact absurd ((le_of_pass h.steadyTwin).2.trans_eq h.stop) (Nat.not_le.mpr hlt)

/-- Twins that go on doing the same stay twins and have the same course. -/
theorem agree {pattern : PatternText} {limit : Option Seconds}
    (hgone : commands[gone]? = some (.wait pattern limit)) (h : Parallel commands gone t u es fs) :
    Agree commands gone t u es fs := by
  -- by induction on how much is still to happen; one of the two goes ahead as long as it is calm
  obtain ⟨n, hn⟩ : ∃ n, es.length + fs.length ≤ n := ⟨_, Nat.le_refl _⟩
  induction n generalizing t u es fs with
  | zero =>
    obtain rfl : es = [] := List.eq_nil_of_length_eq_zero (by omega)
    obtain rfl : fs = [] := List.eq_nil_of_length_eq_zero (by omega)
    exact ⟨h.twin, fun _ _ => rfl⟩
  | succ n ih =>
    by_cases hstuck : Stuck u fs
    · cases es with
      | nil =>
        obtain rfl := h.finished hstuck
        exact ⟨h.twin, fun _ _ => rfl⟩
      | cons e es =>
        cases e with
        | pass moment =>
          by_cases hcalm : Calm (· ≠ gone) t moment
          · have hrest := ih (h.passLeft hcalm) (by simp at hn; omega)
            exact hrest.left (hcalm.spares h.twin.tidy).log
          · obtain ⟨gs, rfl⟩ := h.keepStep hcalm hstuck
            have hrest := ih h.passBoth (by simp at hn; omega)
            refine hrest.both h.twin.log h.passBoth.twin.log ?_
            rw [now_pass, now_pass]
        | deed deed =>
          cases deed with
          | call command =>
            by_cases hsize : t.tasks.size = gone
            · obtain ⟨rfl, hnext⟩ := h.callLeft hsize hgone
              have hrest := ih hnext (by simp at hn; omega)
              exact hrest.left (sameLog_happen t (.inl ⟨pattern, limit, rfl⟩))
            · have hd := h.done
              rw [deeds, without, if_neg hsize] at hd
              obtain ⟨gs, rfl, hnow⟩ := h.meet hstuck hd
              have hnext := h.callBoth hnow hsize
              have hrest := ih hnext (by simp at hn; omega)
              refine hrest.both h.twin.log hnext.twin.log ?_
              rw [now_deed, now_deed, hnow]
          | cancel call =>
            by_cases hcall : call = gone
            · subst hcall
              have hrest := ih h.cancelLeft (by simp at hn; omega)
              exact hrest.left (sameLog_happen t (.inr ⟨call, rfl⟩))
            · have hd := h.done
              rw [deeds, without, if_neg hcall] at hd
              obtain ⟨gs, rfl, hnow⟩ := h.meet hstuck hd
              have hnext := h.cancelBoth hnow hcall
              have hrest := ih hnext (by simp at hn; omega)
              refine hrest.both h.twin.log hnext.twin.log ?_
              rw [now_deed, now_deed, hnow]
    · obtain ⟨moment, gs, rfl, hcalm⟩ := Classical.not_not.mp hstuck
      have hrest := ih (h.passRight hcalm) (by simp at hn; omega)
      exact hrest.right h.twin.log (hcalm.spares h.twin.tidyTwin).log

end Parallel

/-- Anything that can happen to the twin next can happen to the first log. -/
theorem Twin.le_next (h : Twin commands gone t u)
    (hnext : ∀ next, nextMoment machinery t = some next → moment ≤ next) (next : Instant)
    (hn : nextMoment machinery u = some next) : moment ≤ next := by
  have hle : ∀ wake, (machinery.nextChange t.state = some wake ∨
      ∃ (id : TaskId) (task : Task LineWait Result), t.tasks[id]? = some task ∧
        task.wake machinery.wake = some wake) → moment ≤ wake := by
    intro wake hw
    obtain ⟨first, hfirst, hf⟩ := nextMoment_le hw
    exact Nat.le_trans (hnext first hf) hfirst
  rcases nextMoment_mem hn with hchange | ⟨l, task, htask, hwake⟩
  · have hcoming : u.state.coming.head?.map (·.1) = some next := hchange
    rw [h.log.coming] at hcoming
    exact hle next (.inl hcoming)
  · obtain ⟨k, hk, hne, rfl⟩ := h.origin (Array.getElem?_eq_some_iff.mp htask).1
    cases h.alike k hk hne with
    | ended hone hother _ =>
      obtain rfl := Option.some.inj (hother.symm.trans htask)
      cases hwake
    | waiting hone hother =>
      obtain rfl := Option.some.inj (hother.attended.task.symm.trans htask)
      exact hle next (.inr ⟨k, _, hone.attended.task, hwake⟩)

theorem Twin.exists_without {pattern : PatternText} {limit : Option Seconds}
    (hgone : commands[gone]? = some (.wait pattern limit)) (h : Twin commands gone t u)
    (hnow : u.state.now = t.state.now) (hes : Steady t es)
    (hcalled : calls (deeds t es) = commands.drop t.tasks.size) :
    ∃ fs, Steady u fs ∧ deeds u fs = without gone t.tasks.size (deeds t es) ∧
      (after u fs).state.now = (after t es).state.now := by
  induction es generalizing t u with
  | nil => exact ⟨[], trivial, rfl, hnow⟩
  | cons e es ih =>
    -- the twin does the same, but for what concerns the call that is left out
    cases e with
    | pass moment =>
      have hsize : (happen t (.pass moment)).tasks.size = t.tasks.size := size_settle _
      obtain ⟨fs, hfs, hdone, hstop⟩ := ih
        (h.together (e := .pass moment) (fun _ he => by cases he) (fun _ he => by cases he)
          fun he => by cases he)
        ((now_pass u moment).trans (now_pass t moment).symm) hes.2 (hsize ▸ hcalled)
      rw [hsize] at hdone
      exact ⟨.pass moment :: fs, ⟨⟨hnow ▸ hes.1.1, h.le_next hes.1.2⟩, hfs⟩, hdone, hstop⟩
    | deed deed =>
      cases deed with
      | call command =>
        obtain ⟨hcommand, hrest⟩ := called_next hcalled
        have hsize := size_call t command
        by_cases hout : t.tasks.size = gone
        · subst hout
          obtain rfl : command = .wait pattern limit :=
            Option.some.inj (hcommand.symm.trans hgone)
          obtain ⟨fs, hfs, hdone, hstop⟩ := ih (h.begun pattern limit)
            (hnow.trans (now_deed t _).symm) hes (hsize ▸ hrest)
          refine ⟨fs, hfs, ?_, hstop⟩
          rw [hdone, hsize, deeds, without, if_pos rfl]
        · obtain ⟨fs, hfs, hdone, hstop⟩ := ih
            (h.together (e := .deed (.call command)) (fun _ _ => hnow)
              (fun other he => ⟨by cases he; exact hcommand, hout⟩) fun he => by cases he)
            ((now_deed u _).trans (hnow.trans (now_deed t _).symm)) hes (hsize ▸ hrest)
          refine ⟨.deed (.call command) :: fs, hfs, ?_, hstop⟩
          rw [deeds, deeds, without, if_neg hout, hnow, ← hsize]
          exact congrArg _ hdone
      | cancel call =>
        have hsize := size_cancel t call
        by_cases hout : call = gone
        · subst hout
          obtain ⟨fs, hfs, hdone, hstop⟩ := ih h.cancelled (hnow.trans (now_deed t _).symm) hes
            (hsize ▸ hcalled)
          refine ⟨fs, hfs, ?_, hstop⟩
          rw [hdone, hsize, deeds, without, if_pos rfl]
        · obtain ⟨fs, hfs, hdone, hstop⟩ := ih
            (h.together (e := .deed (.cancel call)) (fun _ _ => hnow) (fun _ he => by cases he)
              (fun he => hout (by simpa using he)))
            ((now_deed u _).trans (hnow.trans (now_deed t _).symm)) hes (hsize ▸ hcalled)
          refine ⟨.deed (.cancel (renumber gone call)) :: fs, hfs, ?_, hstop⟩
          rw [deeds, deeds, without, if_neg hout, hnow, ← hsize]
          exact congrArg _ hdone

end

/-- Nobody has called anything on a log at first, so it is its own twin. -/
theorem Twin.ofFeed (commands : List Command) (gone : Nat) (usualLimit : Option Seconds)
    (feed : List (Instant × Feed)) :
    Twin commands gone { state := Listening.ofFeed usualLimit feed }
      { state := Listening.ofFeed usualLimit feed } :=
  ⟨.ofFeed usualLimit feed, .ofFeed usualLimit feed, .refl _, by simp [renumber], nofun⟩

theorem Twin.outcome? {commands : List Command} {gone call : Nat} {t u : Listeners}
    (h : Twin commands gone t u) (hcall : call < t.tasks.size) (hne : call ≠ gone)
    (hstate : commands[call]? ≠ some .state) :
    outcome? u (renumber gone call) = outcome? t call := by
  unfold Listening.outcome?
  cases h.alike call hcall hne with
  | ended hone hother hsame => rw [hone, hother, hsame hstate]
  | waiting hone hother => rw [hone.attended.task, hother.attended.task]

theorem size_after (t : Listeners) (es : List Event) :
    (after t es).tasks.size = t.tasks.size + (calls (deeds t es)).length := by
  induction es generalizing t with
  | nil => rfl
  | cons e es ih =>
    refine (ih (happen t e)).trans ?_
    cases e with
    | pass moment => rw [deeds, happen, size_settle]; rfl
    | deed deed =>
      cases deed with
      | call command =>
        rw [size_call, deeds]
        simp only [calls, List.filterMap_cons, List.length_cons]
        omega
      | cancel call =>
        rw [size_cancel, deeds]
        rfl

/-- At every moment the subscribers of a log are the waits that are still pending, in the order in
which they have been called. A run without one of its waits, its cancellation included, has the same
course of lines and end, and every other wait comes to the same end at the same time. -/
theorem waits_apart (usualLimit : Option Seconds) (feed : List (Instant × Feed)) (es : List Event)
    (gone : Nat) (pattern : PatternText) (limit : Option Seconds) :
    let start : Listeners := { state := ofFeed usualLimit feed }
    let full := after start es
    Steady start es → (calls (deeds start es))[gone]? = some (.wait pattern limit) →
    (full.state.log.subscribers = pendingQueues full ∧
      ∀ t, Later machinery start t → t.state.log.subscribers = pendingQueues t) ∧
    (∃ fs, Steady start fs ∧ deeds start fs = without gone 0 (deeds start es) ∧
      (after start fs).state.now = full.state.now) ∧
    ∀ fs, Steady start fs → deeds start fs = without gone 0 (deeds start es) →
      (after start fs).state.now = full.state.now →
      (after start fs).state.log.lines = full.state.log.lines ∧
      record start (.opening start.state) fs = record start (.opening start.state) es ∧
      ∀ call pattern limit, call ≠ gone →
        (calls (deeds start es))[call]? = some (.wait pattern limit) →
        outcome? (after start fs) (renumber gone call) = outcome? full call := by
  intro start full hsteady hwait
  have hsubscribed : Subscribed start := .ofFeed usualLimit feed
  have htwin : Twin (calls (deeds start es)) gone start start := .ofFeed _ gone usualLimit feed
  refine ⟨⟨(hsubscribed.after es).subscribers, fun t ht => (hsubscribed.later ht).subscribers⟩,
    htwin.exists_without hwait rfl hsteady rfl, fun fs hfs hdone hstop => ?_⟩
  have hagree := Parallel.agree hwait ⟨htwin, hsteady, hfs, rfl, hdone, hstop⟩
  refine ⟨hagree.twin.log.lines, hagree.record _ ?_, fun call pattern limit hne hcall => ?_⟩
  · change start.state.log.closed = (if start.state.log.closed then some start.state.now
      else none).isSome
    cases start.state.log.closed <;> rfl
  · refine hagree.twin.outcome? ?_ hne fun hstate => ?_
    · rw [size_after]
      exact Nat.lt_of_lt_of_le (List.getElem?_eq_some_iff.mp hcall).1 (Nat.le_add_left _ _)
    · rw [hcall] at hstate
      cases hstate

/-- A wait that has run out is left out of a run in which one wait finds its line, one is cancelled
and one sees the end. The run without it does not stop at the moment at which it ran out. -/
theorem waits_apart_from_one_run_out :
    let wait (text : String) (limit : Option Seconds) : Event :=
      .deed (.call (.wait { text } limit))
    let append : Event := .deed (.call (.append "abb"))
    let feed : List (Instant × Feed) := [(2000000000, .close)]
    let es : List Event := [wait "z" (some (.whole 1)), wait "b+" none, wait "q" none,
      wait "y" none, .pass 5, append, .deed (.cancel 3), .pass 1000000000, .deed (.cancel 0),
      .pass 2000000000]
    let fs : List Event := [wait "b+" none, wait "q" none, wait "y" none, .pass 5, append,
      .deed (.cancel 2), .pass 2000000000]
    let start : Listeners := { state := ofFeed none feed }
    Steady start es ∧
      (calls (deeds start es))[0]? = some (.wait { text := "z" } (some (.whole 1))) ∧
      Steady start fs ∧ deeds start fs = without 0 0 (deeds start es) ∧
      (after start fs).state.now = (after start es).state.now ∧
      (after start (es.take 8)).state.log.subscribers = [2] ∧
      record start (.opening start.state) fs = ⟨[(5, "abb")], some 2000000000⟩ ∧
      (outcome? (after start es) 0).map (·.time) = some 1000000000 ∧
      (outcome? (after start es) 1).map (·.time) = some 5 ∧
      ∀ call ∈ [1, 2, 3],
        outcome? (after start fs) (renumber 0 call) = outcome? (after start es) call := by
  intro wait append feed es fs start
  subst start
  have hes : Steady { state := ofFeed none feed } es := by decide +kernel
  have hfs : Steady { state := ofFeed none feed } fs := by decide +kernel
  have hwait : (calls (deeds { state := ofFeed none feed } es))[0]? =
      some (.wait { text := "z" } (some (.whole 1))) := by decide +kernel
  have hdone : deeds { state := ofFeed none feed } fs =
      without 0 0 (deeds { state := ofFeed none feed } es) := by decide +kernel
  have hstop : (after { state := ofFeed none feed } fs).state.now =
      (after { state := ofFeed none feed } es).state.now := by decide +kernel
  obtain ⟨-, -, hall⟩ := waits_apart none feed es 0 { text := "z" } (some (.whole 1)) hes hwait
  obtain ⟨-, hrecord, hothers⟩ := hall fs hfs hdone hstop
  have hcourse : record { state := ofFeed none feed } (.opening (ofFeed none feed)) es =
      ⟨[(5, "abb")], some 2000000000⟩ := by decide +kernel
  refine ⟨hes, hwait, hfs, hdone, hstop, by decide +kernel, hrecord.trans hcourse,
    by decide +kernel, by decide +kernel, fun call hcall => ?_⟩
  have hcases : call = 1 ∨ call = 2 ∨ call = 3 := by simpa using hcall
  rcases hcases with rfl | rfl | rfl
  · exact hothers 1 { text := "b+" } none (by decide) (by decide +kernel)
  · exact hothers 2 { text := "q" } none (by decide) (by decide +kernel)
  · exact hothers 3 { text := "y" } none (by decide) (by decide +kernel)

end Overseer.Listening
