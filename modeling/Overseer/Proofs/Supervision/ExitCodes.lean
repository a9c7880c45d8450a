import Overseer.Proofs.Supervision.Exits

/-!
# Exit codes

The code under which the end of a process is reported is the code with which its shell has ended
(`Truthful`), it is reported at the moment at which the chronicle says that the log is closed, and
neither of them ever changes.
-/

namespace Overseer

open World

def Phase.code? : Phase → Option Int
  | .running => none
  | .draining code _ => some code
  | .completed code => some code

def Truthful (p : Supervised) (c : Child) : Prop :=
  ∀ code, p.phase.code? = some code → c.exitCode = some code

namespace Supervised

variable {p q : Supervised} {c d : Child} {now : Instant}

theorem phase_readOutput (p : Supervised) (s : Scene) : (p.readOutput s).2.phase = p.phase := by
  unfold readOutput
  split
  · split
    · rfl
    · exact p.phase_readChunks _
  · rfl

theorem phase_giveUpReading (p : Supervised) (s : Scene) :
    (p.giveUpReading s).2.phase = p.phase := by
  unfold giveUpReading
  split
  · split <;> rfl
  · rfl

theorem phase_same (h : p.Same q) : q.phase = p.phase := by
  obtain ⟨log, rfl, -, -⟩ := h
  rfl

theorem enduring_exitCode : Enduring fun p q => ∀ code, p.exitCode? = some code →
    q.exitCode? = some code where
  refl _ _ h := h
  trans h k code hp := k code (h code hp)
  same hs code h := by
    rw [exitCode?_eq_some_iff] at h ⊢
    rw [phase_same hs, h]
  readOutput p s code h := by
    rw [exitCode?_eq_some_iff] at h ⊢
    rw [phase_readOutput, h]
  noticeExit p s code h := by
    rw [noticeExit_of_not_running (by simp [exitCode?_eq_some_iff.mp h])]
    exact h
  giveUpReading p s code h := by
    rw [exitCode?_eq_some_iff] at h ⊢
    rw [phase_giveUpReading, h]
  reportEnd p s code h := by
    rw [reportEnd_of_completed (exitCode?_eq_some_iff.mp h)]
    exact h

end Supervised

namespace Truthful

variable {p q : Supervised} {c d : Child} {now : Instant}

theorem of_phase (h : Truthful p c) (hphase : q.phase = p.phase)
    (hcode : ∀ code, c.exitCode = some code → d.exitCode = some code) : Truthful q d := by
  intro code hq
  rw [hphase] at hq
  exact hcode code (h code hq)

theorem readOutput (h : Truthful p c) (hs : Fleet.Stepped Supervised.readOutput now p c q d) :
    Truthful q d := by
  obtain ⟨s, -, hc, rfl, hd⟩ := hs
  refine h.of_phase (p.phase_readOutput s) fun code hcode => ?_
  by_cases hr : p.reader = .reading
  · cases hp : s.system.pipe? p.child with
    | none =>
      rw [readOutput_of_no_pipe hr hp] at hd
      rwa [← Option.some.inj (hc.symm.trans hd)]
    | some pipe =>
      rw [(readOutput_of_reading hr hp).2, System.emptyPipe, System.onPipe,
        Array.getElem?_modify] at hd
      split at hd
      · rw [hc] at hd
        obtain rfl := Option.some.inj hd
        exact hcode
      · rwa [← Option.some.inj (hc.symm.trans hd)]
  · rw [readOutput_of_not_reading hr] at hd
    rwa [← Option.some.inj (hc.symm.trans hd)]

theorem noticeExit (h : Truthful p c) (hs : Fleet.Stepped Supervised.noticeExit now p c q c) :
    Truthful q c := by
  obtain ⟨s, -, hc, rfl, -⟩ := hs
  unfold Supervised.noticeExit
  split
  next code hphase hcode =>
    intro other hother
    obtain rfl := Option.some.inj hother
    rwa [System.exitCode?, hc] at hcode
  · exact h

theorem reportEnd (h : Truthful p c) (hs : Fleet.Stepped Supervised.reportEnd now p c q c) :
    Truthful q c := by
  obtain ⟨s, -, -, rfl, -⟩ := hs
  by_cases hd : ∃ code deadline, p.phase = .draining code deadline
  · obtain ⟨code, deadline, hphase⟩ := hd
    by_cases hr : p.reader = .reading
    · rwa [reportEnd_of_reading hr]
    · rw [reportEnd_of_draining hphase hr]
      intro other hother
      obtain rfl := Option.some.inj hother
      exact h code (by rw [hphase]; rfl)
  · have hsame : (p.reportEnd s).2 = p := by
      unfold Supervised.reportEnd
      split
      next code deadline hphase _ => exact absurd ⟨code, deadline, hphase⟩ hd
      next code deadline text hphase _ => exact absurd ⟨code, deadline, hphase⟩ hd
      · rfl
    rwa [hsame]

end Truthful

namespace Fleet

variable {f g : Fleet} {k : Prop}

/-- A fleet in which nothing is out of order, and every process knows the truth. -/
structure Honest (f : Fleet) : Prop where
  orderly : f.Orderly
  truthful : ∀ id p c, f.view? id = some (p, c) → Truthful p c

theorem Honest.carries (h : f.Honest) (hc : Carries k f g) : g.Honest where
  orderly := h.orderly.frame hc.toFrame
  truthful id q d hv := by
    rcases hc.view h.orderly.paired id q d hv with ⟨p, c, hp, hs, hg⟩ | ⟨-, -, hfresh⟩
    · exact (h.truthful id p c hp).of_phase (Supervised.phase_same hs) hg.code
    · intro code hcode
      rw [hfresh.phase] at hcode
      cases hcode

theorem Honest.readOutputs (h : f.Honest) : f.readOutputs.Honest where
  orderly := h.orderly.frame (frame_readOutputs f)
  truthful id q d hv := by
    obtain ⟨p, c, hp, hs⟩ := view_readOutputs h.orderly.paired hv
    exact (h.truthful id p c hp).readOutput hs

theorem Honest.watchEnds (h : f.Honest) : f.watchEnds.Honest where
  orderly := h.orderly.frame (frame_watchEnds f)
  truthful id q d hv := by
    rcases view_watchEnds h.orderly.paired h.orderly.listed hv with
      ⟨-, hv⟩ | ⟨p, noticed, last, hv, -, hnotice, hgive, hreport⟩
    · exact h.truthful id q d hv
    · have hnoticed := (h.truthful id p d hv).noticeExit hnotice
      obtain ⟨s, -, -, rfl, -⟩ := hgive
      exact (hnoticed.of_phase (noticed.phase_giveUpReading s) fun _ hc => hc).reportEnd hreport

theorem Honest.advance (h : f.Honest) (t : Instant) : (f.advance t).Honest where
  orderly := h.orderly.advance t
  truthful id q d hv := by
    obtain ⟨c, hp, news, hg⟩ := view_advance hv h.orderly.paired
    exact (h.truthful id q c hp).of_phase rfl hg.code

/-- A process whose code has been reported has exited, and its log is closed. -/
theorem exited_of_exitCode? {id : ProcessId} {code : Int} (h : f.Each Supervised.Consistent)
    (hx : f.exitCode? id = some code) : ∃ p, f.process? id = some p ∧ p.isRunning = false ∧
      p.log.closed = true ∧ p.exitCode? = some code := by
  obtain ⟨p, hp, hcode⟩ := Option.bind_eq_some_iff.mp hx
  have hsome : p.exitCode?.isSome = true := Option.isSome_iff_exists.mpr ⟨code, hcode⟩
  exact ⟨p, hp, Supervised.isRunning_eq_false_iff.mpr hsome,
    (h id p hp).closed_iff.mpr hsome, hcode⟩

end Fleet

namespace Session

open Timeline

variable {s : Session} {w : System} {others : List Birth} {t u : Timeline Session Activity Result}
  {id : ProcessId} {p : Supervised} {c : Child} {ch : ProcessId → Chronicle} {code : Int}

theorem honest_later (h : Later machinery { state := s.afresh w others } t) :
    t.state.fleet.Honest := by
  refine Later.induction (m := machinery) (P := fun u => u.state.fleet.Honest) ?_ ?_ ?_ ?_ ?_
    ⟨(faithful_afresh s w others).orderly, fun id p c hv => ?_⟩ h
  · exact fun u step hu => hu.carries (calls_launch u step).carries
  · exact fun u moment hu => hu.advance moment
  · exact fun u hu => hu.readOutputs
  · exact fun u hu => hu.watchEnds
  · exact fun u task hu => hu.carries (calls_pollTask u task).carries
  · cases hv

theorem exitCode?_later (hx : t.state.fleet.exitCode? id = some code) (h : Later machinery t u) :
    u.state.fleet.exitCode? id = some code := by
  obtain ⟨p, hp, hcode⟩ := Option.bind_eq_some_iff.mp hx
  obtain ⟨q, hq, hkept⟩ := Supervised.enduring_exitCode.later h hp
  unfold Fleet.exitCode?
  rw [hq, Option.bind_some, hkept code hcode]

theorem exists_later (hp : (t.state.fleet.process? id).isSome = true) (h : Later machinery t u) :
    (u.state.fleet.process? id).isSome = true := by
  obtain ⟨p, hp⟩ := Option.isSome_iff_exists.mp hp
  obtain ⟨q, hq, -⟩ := Supervised.enduring_exitCode.later h hp
  rw [hq]
  rfl

theorem later_move (t : Timeline Session Activity Result) (x : Move Command) :
    Later machinery t (move machinery t x) :=
  (Later.refl.stir x).settle

theorem exitCode?_of_view (hv : t.state.fleet.view? id = some (p, c))
    (hx : p.exitCode? = some code) : t.state.fleet.exitCode? id = some code := by
  unfold Fleet.exitCode? Fleet.process?
  rw [(Fleet.view?_eq_some_iff.mp hv).1, Option.bind_some, hx]

/-- The end of a process has been reported if and only if its log has been closed, and not later
than now. -/
theorem Faithful.exitCode? (h : Faithful t ch) (hp : (t.state.fleet.process? id).isSome = true) :
    t.state.fleet.exitCode? id = none ∧ (ch id).logEnd = none ∨
      ∃ code cut, t.state.fleet.exitCode? id = some code ∧ (ch id).logEnd = some cut ∧
        cut ≤ t.state.now := by
  obtain ⟨p, hp⟩ := Option.isSome_iff_exists.mp hp
  obtain ⟨c, hv⟩ := h.orderly.paired.of_process hp
  have hcode : t.state.fleet.exitCode? id = p.exitCode? := by
    rw [Fleet.exitCode?, hp, Option.bind_some]
  rcases (h.settled id p c hv).stands with ⟨hphase, -, hreads⟩ | ⟨hdraining⟩ | @⟨cut, hclosed⟩
  · refine .inl ⟨hcode.trans ?_, hreads.logEnd⟩
    exact Supervised.exitCode?_eq_none fun code => by simp [hphase]
  · refine .inl ⟨hcode.trans ?_, hdraining.reads.logEnd⟩
    exact Supervised.exitCode?_eq_none fun code => by simp [hdraining.phase]
  · obtain ⟨code, hphase⟩ := hclosed.phase
    exact .inr ⟨code, cut, hcode.trans (Supervised.exitCode?_eq_some_iff.mpr hphase),
      hclosed.logEnd, hclosed.past⟩

/-- The chronicle of a program keeps the moment at which the log was closed, and a log that closes
in a move closes at its moment. -/
theorem logEnd_observe (ch : Chronicle) (id : ProcessId) (before stirred after : Fleet) :
    (∀ cut, ch.logEnd = some cut → (ch.observe id before stirred after).logEnd = some cut) ∧
    (ch.logEnd = none → ∀ cut, (ch.observe id before stirred after).logEnd = some cut →
      cut = after.now) := by
  unfold Chronicle.observe
  cases after.view? id with
  | none =>
    refine ⟨fun cut h => h, fun hn cut h => ?_⟩
    rw [hn] at h
    cases h
  | some x =>
    simp only [Chronicle.mark, Chronicle.hear]
    refine ⟨fun cut h => by rw [h]; rfl, fun hn cut h => ?_⟩
    rw [hn] at h
    split at h
    · exact (Option.some.inj h).symm
    · cases h

theorem now_move (t : Timeline Session Activity Result) (x : Move Command) :
    (move machinery t x).state.now = (stir machinery t x).state.now :=
  machinery_punctual.now_settle _

theorem Faithful.now_le_move (h : Faithful t ch) (x : Move Command) :
    t.state.now ≤ (Timeline.move machinery t x).state.now := by
  rw [now_move]
  cases x with
  | begin step => exact Nat.le_of_eq (machinery_punctual.now_launch t step).symm
  | tick =>
    unfold Timeline.stir
    cases hn : nextMoment machinery t with
    | none => exact Nat.le_refl _
    | some moment =>
      have hnow := machinery_punctual.now_advance t.state moment
      exact Nat.le_trans (Nat.le_of_lt (h.lt_nextMoment hn)) (Nat.le_of_eq hnow.symm)

theorem chronicle_append (id : ProcessId) (t : Timeline Session Activity Result) (ch : Chronicle)
    (xs ys : List (Move Command)) :
    chronicle id t ch (xs ++ ys) =
      chronicle id (play machinery t xs) (chronicle id t ch xs) ys := by
  induction xs generalizing t ch with
  | nil => rfl
  | cons x xs ih => exact ih _ _

end Session

end Overseer
