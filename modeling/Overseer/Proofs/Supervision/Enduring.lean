import Overseer.Proofs.Supervision.Programs

/-!
# What becomes of a process

Callers change no more of a process than the queues of its log; apart from them there are reading
and watching, one process after another. A relation that these few things keep up
(`Supervised.Enduring`) holds between a process now and the same process at any later time.
-/

namespace Overseer

open World Timeline

/-- A relation between processes that is kept up by everything that is done with one. -/
structure Supervised.Enduring (R : Supervised → Supervised → Prop) : Prop where
  refl : ∀ p, R p p
  trans : ∀ {p q r}, R p q → R q r → R p r
  same : ∀ {p q}, p.Same q → R p q
  readOutput : ∀ p s, R p (p.readOutput s).2
  noticeExit : ∀ p s, R p (p.noticeExit s).2
  giveUpReading : ∀ p s, R p (p.giveUpReading s).2
  reportEnd : ∀ p s, R p (p.reportEnd s).2

namespace Fleet

variable {f g : Fleet} {id other : ProcessId} {p q : Supervised} {k : Prop}

theorem process?_setLog (f : Fleet) (id other : ProcessId) (log : OutputLog) :
    (f.setLog id log).process? other =
      if id = other then (f.process? other).map ({ · with log }) else f.process? other :=
  Array.getElem?_modify ..

theorem log_eq (h : f.process? id = some p) : f.log id = p.log := by rw [log, h]; rfl

/-- A log that is set in place of one with the same lines leaves each process the same. -/
theorem same_setLog {log : OutputLog} (hl : log.lines = (f.log id).lines)
    (hc : log.closed = (f.log id).closed) (hp : f.process? other = some p) :
    ∃ q, (f.setLog id log).process? other = some q ∧ p.Same q := by
  rw [process?_setLog]
  by_cases he : id = other
  · subst he
    rw [log_eq hp] at hl hc
    rw [if_pos rfl, hp]
    exact ⟨_, rfl, log, rfl, hl, hc⟩
  · rw [if_neg he]
    exact ⟨p, hp, .refl p⟩

theorem process?_setLog_isSome (f : Fleet) (id other : ProcessId) (log : OutputLog) :
    ((f.setLog id log).process? other).isSome = (f.process? other).isSome := by
  rw [process?_setLog]
  split <;> simp

theorem process?_start_of_some (settings : Settings) (request : Request)
    (hp : f.process? id = some p) : (f.start settings request).1.process? id = some p := by
  rcases start_cases f settings request with hs | ⟨launch, ⟨-, -, hs⟩ | ⟨q, notes, -, -, -, -, hs⟩⟩
  · rw [hs, hp]
  · rw [hs]
    exact hp
  · rw [hs]
    have hlt := (Array.getElem?_eq_some_iff.mp hp).1
    exact (Array.getElem?_push_lt hlt).trans (Array.getElem?_eq_getElem hlt ▸ hp)

theorem process?_start_inv (settings : Settings) (request : Request)
    (hq : (f.start settings request).1.process? id = some q) :
    f.process? id = some q ∨ q.Fresh := by
  rcases start_cases f settings request with hs | ⟨launch, ⟨-, -, hs⟩ | ⟨p, notes, -, hp, -, -, hs⟩⟩
  · exact .inl (by rwa [hs] at hq)
  · exact .inl (by rwa [hs] at hq)
  · rw [hs] at hq
    have hq : (f.processes.push p)[id]? = some q := hq
    rw [Array.getElem?_push] at hq
    split at hq
    · obtain rfl := Option.some.inj hq
      exact .inr hp
    · exact .inl hq

theorem Calls.process (h : Calls k f g) (hp : f.process? id = some p) :
    ∃ q, g.process? id = some q ∧ p.Same q := by
  induction h with
  | refl => exact ⟨p, hp, .refl p⟩
  | report _ _ ih => exact ih
  | signalProcess _ _ _ ih => exact ih
  | signalGroup _ _ _ ih => exact ih
  | registry _ _ ih => exact ih
  | setLog _ hl hc ih =>
    obtain ⟨q, hq, hs⟩ := ih
    obtain ⟨r, hr, hsame⟩ := same_setLog hl hc hq
    exact ⟨r, hr, hs.trans hsame⟩
  | start settings request _ _ ih =>
    obtain ⟨q, hq, hs⟩ := ih
    exact ⟨q, process?_start_of_some settings request hq, hs⟩

/-- After callers have done something each process is the same as before, or has been started. -/
theorem Calls.process_inv (h : Calls k f g) (hq : g.process? id = some q) :
    (∃ p, f.process? id = some p ∧ p.Same q) ∨ q.Fresh := by
  induction h generalizing q with
  | refl => exact .inl ⟨q, hq, .refl q⟩
  | report _ _ ih => exact ih hq
  | signalProcess _ _ _ ih => exact ih hq
  | signalGroup _ _ _ ih => exact ih hq
  | registry _ _ ih => exact ih hq
  | @setLog g other log _ hl hc ih =>
    cases hp : g.process? id with
    | none =>
      have hsome := process?_setLog_isSome g other id log
      rw [hp, hq] at hsome
      cases hsome
    | some p =>
      obtain ⟨r, hr, hs⟩ := same_setLog hl hc hp
      obtain rfl := Option.some.inj (hq.symm.trans hr)
      rcases ih hp with ⟨x, hx, hxs⟩ | hfresh
      · exact .inl ⟨x, hx, hxs.trans hs⟩
      · exact .inr (hfresh.same hs)
  | start settings request _ _ ih =>
    rcases process?_start_inv settings request hq with hq | hfresh
    · exact ih hq
    · exact .inr hfresh

section

variable {R : Supervised → Supervised → Prop} {step : Supervised → Scene → Scene × Supervised}

theorem process_stepProcess (hrefl : ∀ p, R p p) (hstep : ∀ p s, R p (step p s).2) (f : Fleet)
    (id : ProcessId) (hp : f.process? other = some p) :
    ∃ q, (stepProcess step f id).process? other = some q ∧ R p q := by
  unfold stepProcess
  split
  · exact ⟨p, hp, hrefl p⟩
  next x hx =>
    by_cases he : id = other
    · subst he
      obtain rfl := Option.some.inj (hx.symm.trans hp)
      exact ⟨_, Array.getElem?_setIfInBounds_self_of_lt (Array.getElem?_eq_some_iff.mp hx).1,
        hstep x f.scene⟩
    · exact ⟨p, (Array.getElem?_setIfInBounds_ne he).trans hp, hrefl p⟩

theorem process_stepEach (hrefl : ∀ p, R p p) (htrans : ∀ {p q r}, R p q → R q r → R p r)
    (hstep : ∀ p s, R p (step p s).2) (ids : List ProcessId) (hp : f.process? id = some p) :
    ∃ q, (f.stepEach step ids).process? id = some q ∧ R p q := by
  induction ids generalizing f p with
  | nil => exact ⟨p, hp, hrefl p⟩
  | cons first ids ih =>
    obtain ⟨q, hq, hpq⟩ := process_stepProcess hrefl hstep f first hp
    obtain ⟨r, hr, hqr⟩ := ih hq
    exact ⟨r, hr, htrans hpq hqr⟩

theorem size_stepEach (step : Supervised → Scene → Scene × Supervised) (ids : List ProcessId)
    (f : Fleet) : (f.stepEach step ids).processes.size = f.processes.size := by
  induction ids generalizing f with
  | nil => rfl
  | cons first ids ih =>
    refine (ih (stepProcess step f first)).trans ?_
    unfold stepProcess
    split <;> simp

end

end Fleet

namespace Supervised.Enduring

variable {R : Supervised → Supervised → Prop} {f : Fleet} {id : ProcessId} {p q : Supervised}
  {t u : Timeline Session Session.Activity Session.Result}

theorem readOutputs (hR : Enduring R) (hp : f.process? id = some p) :
    ∃ q, f.readOutputs.process? id = some q ∧ R p q :=
  Fleet.process_stepEach hR.refl hR.trans hR.readOutput _ hp

theorem watchEnds (hR : Enduring R) (hp : f.process? id = some p) :
    ∃ q, f.watchEnds.process? id = some q ∧ R p q := by
  obtain ⟨noticed, hnoticed, hn⟩ :=
    Fleet.process_stepEach hR.refl hR.trans hR.noticeExit f.ended hp
  obtain ⟨last, hlast, hl⟩ :=
    Fleet.process_stepEach hR.refl hR.trans hR.giveUpReading f.ended hnoticed
  obtain ⟨q, hq, he⟩ := Fleet.process_stepEach hR.refl hR.trans hR.reportEnd f.ended hlast
  exact ⟨q, hq, hR.trans hn (hR.trans hl he)⟩

/-- What is kept up holds between a process and the same process at any later time. -/
theorem later (hR : Enduring R) (h : Later Session.machinery t u)
    (hp : t.state.fleet.process? id = some p) :
    ∃ q, u.state.fleet.process? id = some q ∧ R p q := by
  have hcalls : ∀ {k : Prop} {f g : Fleet}, Fleet.Calls k f g →
      (∃ q, f.process? id = some q ∧ R p q) → ∃ q, g.process? id = some q ∧ R p q := by
    rintro k f g hc ⟨q, hq, hpq⟩
    obtain ⟨r, hr, hqr⟩ := hc.process hq
    exact ⟨r, hr, hR.trans hpq (hR.same hqr)⟩
  refine Later.induction (m := Session.machinery)
    (P := fun u => ∃ q, u.state.fleet.process? id = some q ∧ R p q) ?_ ?_ ?_ ?_ ?_
    ⟨p, hp, hR.refl p⟩ h
  · exact fun u step hu => hcalls (Session.calls_launch u step) hu
  · exact fun u moment hu => hu
  · rintro u ⟨q, hq, hpq⟩
    obtain ⟨r, hr, hqr⟩ := hR.readOutputs hq
    exact ⟨r, hr, hR.trans hpq hqr⟩
  · rintro u ⟨q, hq, hpq⟩
    obtain ⟨r, hr, hqr⟩ := hR.watchEnds hq
    exact ⟨r, hr, hR.trans hpq hqr⟩
  · exact fun u task hu => hcalls (Session.calls_pollTask u task) hu

end Supervised.Enduring

def Fleet.Each (P : Supervised → Prop) (f : Fleet) : Prop :=
  ∀ id p, f.process? id = some p → P p

namespace Fleet

variable {P : Supervised → Prop} {f g : Fleet} {k : Prop}

/-- What is known of a process is known of it after the next step too. -/
theorem Each.of_process (h : f.Each P) (hsize : g.processes.size = f.processes.size)
    (hstep : ∀ id p, f.process? id = some p → ∃ q, g.process? id = some q ∧ (P p → P q)) :
    g.Each P := by
  intro id q hq
  have hlt : id < f.processes.size := hsize ▸ (Array.getElem?_eq_some_iff.mp hq).1
  obtain ⟨r, hr, hpr⟩ := hstep id _ (Array.getElem?_eq_getElem hlt)
  obtain rfl := Option.some.inj (hq.symm.trans hr)
  exact hpr (h id _ (Array.getElem?_eq_getElem hlt))

theorem Each.stepEach {step : Supervised → Scene → Scene × Supervised} (h : f.Each P)
    (hstep : ∀ p s, P p → P (step p s).2) (ids : List ProcessId) : (f.stepEach step ids).Each P :=
  h.of_process (size_stepEach step ids f) fun _ _ hp =>
    process_stepEach (R := fun p q => P p → P q) (fun _ h => h) (fun h k hp =>
      k (h hp)) hstep ids hp

theorem Each.calls (h : f.Each P) (hc : Calls k f g) (hsame : ∀ p q, p.Same q → P p → P q)
    (hfresh : ∀ p : Supervised, p.Fresh → P p) : g.Each P := by
  intro id q hq
  rcases hc.process_inv hq with ⟨p, hp, hs⟩ | hf
  · exact hsame p q hs (h id p hp)
  · exact hfresh q hf

end Fleet

/-- What holds of a process that has just been started, and is kept up by everything, holds of every
process at every later time. -/
theorem Supervised.Enduring.each {P : Supervised → Prop} (hP : Enduring fun p q => P p → P q)
    (hfresh : ∀ p : Supervised, p.Fresh → P p)
    {t u : Timeline Session Session.Activity Session.Result} (h : Later Session.machinery t u)
    (ht : t.state.fleet.Each P) : u.state.fleet.Each P := by
  refine Later.induction (m := Session.machinery) (P := fun u => u.state.fleet.Each P)
    ?_ ?_ ?_ ?_ ?_ ht h
  · exact fun u step hu => hu.calls (Session.calls_launch u step) (fun _ _ => hP.same) hfresh
  · exact fun u moment hu => hu
  · exact fun u hu => hu.stepEach hP.readOutput _
  · exact fun u hu =>
      ((hu.stepEach hP.noticeExit _).stepEach hP.giveUpReading _).stepEach hP.reportEnd _
  · exact fun u task hu => hu.calls (Session.calls_pollTask u task) (fun _ _ => hP.same) hfresh

end Overseer
