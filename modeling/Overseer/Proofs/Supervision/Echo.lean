import Overseer.Proofs.Session.CallerEffects
import Overseer.Proofs.Supervision.Recording

/-!
# The echo

A process with echo has each line that is recorded also reported. The echoes in the journal are
those of some lines that have been said, one after another, each by some process; what a process has
said is what stands in its log (`Fleet.Echoed`). This holds whatever the order of the single steps.
-/

namespace Overseer

open World

namespace Journal

def echoes (j : Journal) : List Note := (j.toList.map (·.note)).filter (·.level == .info)

theorem echoes_add (j : Journal) (now : Instant) (notes : List Note) :
    (j.add now notes).echoes = j.echoes ++ notes.filter (·.level == .info) := by
  simp [echoes, add, Function.comp_def]

end Journal

theorem Unechoed.filter {notes : List Note} (h : Unechoed notes) :
    notes.filter (·.level == .info) = [] :=
  List.filter_eq_nil_iff.mpr fun note hn => by simpa using h note hn

theorem echoes_report (s : Scene) (notes : List Note) :
    (s.report notes).journal.echoes = s.journal.echoes ++ notes.filter (·.level == .info) :=
  Journal.echoes_add s.journal s.now notes

namespace Supervised

def Sealed (p : Supervised) : Prop :=
  p.log.closed = true → p.reader ≠ .reading ∧ ∃ code, p.phase = .completed code

structure Says (p : Supervised) (lines : List String) (q : Supervised) : Prop where
  added : q.log.lines.toList = p.log.lines.toList ++ lines
  pid : q.pid = p.pid
  echo : q.echo = p.echo

def echoOf (p : Supervised) (lines : List String) : List Note :=
  if p.echo then lines.map p.echoNote else []

/-- A process that has recorded some lines into its open log, and the notes it has made. -/
structure Utters (p : Supervised) (lines : List String) (x : Supervised × List Note) : Prop
    extends Says p lines x.1 where
  closed : x.1.log.closed = false
  notes : x.2.filter (·.level == .info) = p.echoOf lines

variable {p q r : Supervised} {lines more : List String} {now : Instant}

theorem Says.trans (h : p.Says lines q) (k : q.Says more r) : p.Says (lines ++ more) r where
  added := by rw [k.added, h.added, List.append_assoc]
  pid := k.pid.trans h.pid
  echo := k.echo.trans h.echo

theorem Says.echoNote (h : p.Says lines q) (line : String) : q.echoNote line = p.echoNote line := by
  rw [Supervised.echoNote, Supervised.echoNote, h.pid]

theorem Says.echoOf (h : p.Says lines q) : q.echoOf more = p.echoOf more := by
  rw [Supervised.echoOf, Supervised.echoOf, h.echo]
  cases p.echo with
  | true => exact List.map_congr_left fun line _ => h.echoNote line
  | false => rfl

theorem echoOf_append (p : Supervised) (lines more : List String) :
    p.echoOf (lines ++ more) = p.echoOf lines ++ p.echoOf more := by
  unfold echoOf
  cases p.echo <;> simp

theorem filter_echoOf (p : Supervised) (lines : List String) :
    (p.echoOf lines).filter (·.level == .info) = p.echoOf lines := by
  unfold echoOf
  cases p.echo with
  | true =>
    refine List.filter_eq_self.mpr fun note hn => ?_
    obtain ⟨line, -, rfl⟩ := List.mem_map.mp hn
    rfl
  | false => rfl

theorem sealed_of_open (h : p.log.closed = false) : p.Sealed := by
  intro hc
  rw [h] at hc
  cases hc

theorem Sealed.open_of_reading (h : p.Sealed) (hr : p.reader = .reading) :
    p.log.closed = false := by
  cases hc : p.log.closed with
  | false => rfl
  | true => exact absurd hr (h hc).1

theorem Sealed.open_of_not_completed (h : p.Sealed) (hphase : ∀ code, p.phase ≠ .completed code) :
    p.log.closed = false := by
  cases hc : p.log.closed with
  | false => rfl
  | true =>
    obtain ⟨-, code, hcode⟩ := h hc
    exact absurd hcode (hphase code)

theorem utters_record (h : p.log.closed = false) (splitter : Lines.Splitter Octets.Decoder)
    (lines : Array String) : p.Utters lines.toList ({ p with splitter }.record lines) := by
  obtain ⟨hl, hc⟩ := appendAll_of_open h lines
  exact ⟨⟨hl, rfl, rfl⟩, hc, p.filter_echoOf lines.toList⟩

theorem echoOf_nil (p : Supervised) : p.echoOf [] = [] := by
  unfold echoOf
  cases p.echo <;> rfl

theorem utters_nothing (h : p.log.closed = false) (splitter : Lines.Splitter Octets.Decoder)
    (reader : Reader) : p.Utters [] ({ p with splitter, reader }, []) :=
  ⟨⟨(List.append_nil _).symm, rfl, rfl⟩, h, p.echoOf_nil.symm⟩

theorem utters_readChunk (h : p.log.closed = false) (bytes : List UInt8) :
    ∃ lines, p.Utters lines (p.readChunk bytes) := by
  unfold readChunk
  split
  next splitter found hf => exact ⟨found.toList, utters_record h splitter found⟩
  · exact ⟨[], utters_nothing h _ _⟩

theorem utters_readChunks (h : p.log.closed = false) (chunks : List (List UInt8)) :
    ∃ lines, p.Utters lines (p.readChunks chunks) := by
  induction chunks generalizing p with
  | nil => exact ⟨[], utters_nothing h _ _⟩
  | cons bytes chunks ih =>
    rw [readChunks]
    split
    · obtain ⟨lines, hfirst⟩ := utters_readChunk h bytes
      obtain ⟨more, hrest⟩ := ih hfirst.closed
      refine ⟨lines ++ more, hfirst.toSays.trans hrest.toSays, hrest.closed, ?_⟩
      rw [List.filter_append, hfirst.notes, hrest.notes, hfirst.toSays.echoOf, echoOf_append]
    · exact ⟨[], utters_nothing h _ _⟩

theorem utters_recordRest (h : p.log.closed = false) : ∃ lines, p.Utters lines p.recordRest := by
  unfold recordRest
  split
  next splitter found hf => exact ⟨found.toList, utters_record h splitter found⟩
  · exact ⟨[], utters_nothing h _ _⟩

/-- A step that is taken with a process: with echo each line that is recorded is reported. -/
def Tells (step : Supervised → Scene → Scene × Supervised) : Prop :=
  ∀ (p : Supervised) (s : Scene), p.Sealed → ∃ lines, p.Says lines (step p s).2 ∧
    (step p s).1.journal.echoes = s.journal.echoes ++ p.echoOf lines ∧ (step p s).2.Sealed

theorem says_nothing (s : Scene) {reader : Reader} {phase : Phase}
    (h : { p with reader, phase }.Sealed) : ∃ lines, p.Says lines { p with reader, phase } ∧
      s.journal.echoes = s.journal.echoes ++ p.echoOf lines ∧ { p with reader, phase }.Sealed := by
  refine ⟨[], ⟨(List.append_nil _).symm, rfl, rfl⟩, ?_, h⟩
  rw [echoOf_nil, List.append_nil]

theorem tells_readOutput : Tells readOutput := by
  intro p s h
  unfold readOutput
  split
  next hr =>
    have hopen := h.open_of_reading hr
    split
    · exact says_nothing s (sealed_of_open hopen)
    next pipe hp =>
      obtain ⟨lines, htold, hc, hnotes⟩ := utters_readChunks hopen
        (reads pipe.state pipe.unread.flatten)
      refine ⟨lines, ⟨htold.added, htold.pid, htold.echo⟩, ?_, sealed_of_open hc⟩
      rw [← hnotes]
      exact echoes_report { s with system := _ } _
  · exact says_nothing s h

theorem tells_noticeExit : Tells noticeExit := by
  intro p s h
  unfold noticeExit
  split
  next hphase hcode =>
    have hopen := h.open_of_not_completed fun code => by simp [hphase]
    exact says_nothing s (sealed_of_open hopen)
  · exact says_nothing s h

theorem tells_giveUpReading : Tells giveUpReading := by
  intro p s h
  unfold giveUpReading
  split
  next code deadline hphase hr =>
    split
    · have hquiet : (s.report [p.giveUpNote]).journal.echoes = s.journal.echoes :=
        (echoes_report s _).trans (List.append_nil _)
      rw [hquiet]
      exact says_nothing s (sealed_of_open (h.open_of_reading hr))
    · exact says_nothing s h
  · exact says_nothing s h

theorem reader_recordRest (p : Supervised) : p.recordRest.1.reader = p.reader := by
  unfold recordRest
  split <;> rfl

theorem says_complete (h : p.log.closed = false) (hr : p.reader ≠ .reading) (code : Int) :
    ∃ lines, p.Says lines (p.complete code).1 ∧
      (p.complete code).2.filter (·.level == .info) = p.echoOf lines ∧
      (p.complete code).1.Sealed := by
  obtain ⟨lines, htold, hc, hnotes⟩ := utters_recordRest h
  have hclose : p.recordRest.1.log.close =
      ({ p.recordRest.1.log.put .ended with closed := true },
        [p.recordRest.1.log.closingNote]) := by
    unfold OutputLog.close
    rw [hc]
    rfl
  have hreader := reader_recordRest p
  unfold complete
  dsimp only
  rw [hclose]
  refine ⟨lines, ⟨htold.added, htold.pid, htold.echo⟩, ?_, fun _ => ⟨?_, code, rfl⟩⟩
  · rw [List.filter_append, List.filter_append, hnotes]
    exact (List.append_assoc _ _ _).trans (List.append_nil _)
  · dsimp only
    rw [hreader]
    exact hr

theorem tells_reportEnd : Tells reportEnd := by
  intro p s h
  have hend : ∀ (code : Int) (deadline : Option Instant), p.phase = .draining code deadline →
      p.reader ≠ .reading → ∃ lines, p.Says lines (p.complete code).1 ∧
        (p.complete code).2.filter (·.level == .info) = p.echoOf lines ∧
        (p.complete code).1.Sealed := by
    intro code deadline hphase hr
    exact says_complete (h.open_of_not_completed fun other => by simp [hphase]) hr code
  unfold reportEnd
  split
  next code deadline hphase hr =>
    obtain ⟨lines, htold, hnotes, hsealed⟩ := hend code deadline hphase (by simp [hr])
    refine ⟨lines, htold, ?_, hsealed⟩
    rw [← hnotes]
    exact echoes_report s _
  next code deadline text hphase hr =>
    obtain ⟨lines, htold, hnotes, hsealed⟩ := hend code deadline hphase (by simp [hr])
    refine ⟨lines, htold, ?_, hsealed⟩
    rw [← hnotes]
    exact echoes_report s _
  · exact says_nothing s h

end Supervised

namespace Fleet

/-- What the processes have said: each echo in the journal is of one of these lines, and with echo a
process has said what stands in its log. -/
structure Echoed (f : Fleet) (said : List (ProcessId × String)) : Prop where
  notes : f.scene.journal.echoes.map some =
    said.map fun entry => (f.process? entry.1).map (·.echoNote entry.2)
  lines : ∀ id p, f.process? id = some p →
    (said.filter (·.1 == id)).map (·.2) = if p.echo then p.log.lines.toList else []

def Audible (f : Fleet) : Prop :=
  (∃ said, f.Echoed said) ∧ ∀ id p, f.process? id = some p → p.Sealed

variable {f g : Fleet} {id : ProcessId} {p q : Supervised} {lines : List String}
  {said : List (ProcessId × String)} {k : Prop}

theorem Audible.of_eq (h : f.Audible) (hj : g.scene.journal.echoes = f.scene.journal.echoes)
    (hp : g.processes = f.processes) : g.Audible := by
  obtain ⟨⟨said, hnotes, hlines⟩, hsealed⟩ := h
  have hprocess : g.process? = f.process? := by
    unfold process?
    rw [hp]
  refine ⟨⟨said, ?_, ?_⟩, ?_⟩
  · rw [hj, hprocess]
    exact hnotes
  · rw [hprocess]
    exact hlines
  · rw [hprocess]
    exact hsealed

/-- One process has gone on, and what it has recorded meanwhile is echoed. -/
theorem Audible.replace (h : f.Audible) (hp : f.process? id = some p)
    (hown : g.process? id = some q)
    (hothers : ∀ other, other ≠ id → g.process? other = f.process? other) (hs : p.Says lines q)
    (hj : g.scene.journal.echoes = f.scene.journal.echoes ++ p.echoOf lines) (hq : q.Sealed) :
    g.Audible := by
  obtain ⟨⟨said, hnotes, hlines⟩, hsealed⟩ := h
  have hecho : ∀ other line,
      (g.process? other).map (·.echoNote line) = (f.process? other).map (·.echoNote line) := by
    intro other line
    by_cases he : other = id
    · subst he
      rw [hown, hp, Option.map_some, Option.map_some, hs.echoNote]
    · rw [hothers other he]
  -- what the process says comes after all that has been said; the others say nothing
  refine ⟨⟨said ++ if p.echo then lines.map (id, ·) else [], ?_, fun other r hr => ?_⟩,
    fun other r hr => ?_⟩
  · simp only [hecho]
    rw [hj, List.map_append, List.map_append, hnotes]
    congr 1
    unfold Supervised.echoOf
    cases p.echo with
    | true => simp [Function.comp_def, hp]
    | false => rfl
  · by_cases he : other = id
    · subst he
      obtain rfl := Option.some.inj (hown.symm.trans hr)
      rw [List.filter_append, List.map_append, hlines other p hp, hs.echo, hs.added]
      cases p.echo with
      | true => simp [List.filter_map, Function.comp_def]
      | false => rfl
    · rw [hothers other he] at hr
      rw [List.filter_append, List.map_append, hlines other r hr]
      have hnone : (if p.echo then lines.map (id, ·) else []).filter (·.1 == other) = [] := by
        cases p.echo with
        | true => simp [Ne.symm he]
        | false => rfl
      rw [hnone]
      exact List.append_nil _
  · by_cases he : other = id
    · subst he
      obtain rfl := Option.some.inj (hown.symm.trans hr)
      exact hq
    · rw [hothers other he] at hr
      exact hsealed other r hr

theorem Audible.setLog (h : f.Audible) {log : OutputLog} (hl : log.lines = (f.log id).lines)
    (hc : log.closed = (f.log id).closed) : (f.setLog id log).Audible := by
  cases hp : f.process? id with
  | none =>
    refine h.of_eq rfl (Array.ext_getElem? fun other => ?_)
    rw [Fleet.setLog, Array.getElem?_modify]
    split
    next he =>
      subst he
      rw [show f.processes[id]? = none from hp]
      rfl
    · rfl
  | some p =>
    have hlog : f.log id = p.log := by rw [Fleet.log, hp]; rfl
    rw [hlog] at hl hc
    have htold : p.Says [] { p with log } := ⟨by rw [List.append_nil, ← hl], rfl, rfl⟩
    refine h.replace hp ?_ (fun other he => ?_) htold ?_ ?_
    · rw [process?, Fleet.setLog, Array.getElem?_modify, if_pos rfl,
        show f.processes[id]? = some p from hp]
      rfl
    · exact (Array.getElem?_modify ..).trans (if_neg (Ne.symm he))
    · rw [Supervised.echoOf_nil, List.append_nil]
      rfl
    · intro hclosed
      exact h.2 id p hp (hc.symm.trans hclosed)

theorem Audible.push (h : f.Audible) (hj : g.scene.journal.echoes = f.scene.journal.echoes)
    (hpush : g.processes = f.processes.push p) (hp : p.Fresh) : g.Audible := by
  obtain ⟨⟨said, hnotes, hlines⟩, hsealed⟩ := h
  have hlt : ∀ entry ∈ said, entry.1 < f.processes.size := by
    intro entry he
    have hmem : (f.process? entry.1).map (·.echoNote entry.2) ∈
        f.scene.journal.echoes.map some := by
      rw [hnotes]
      exact List.mem_map_of_mem he
    obtain ⟨note, -, hnote⟩ := List.mem_map.mp hmem
    obtain ⟨q, hq, -⟩ := Option.map_eq_some_iff.mp hnote.symm
    exact (Array.getElem?_eq_some_iff.mp hq).1
  have hold : ∀ other, other < f.processes.size → g.process? other = f.process? other := by
    intro other ho
    rw [process?, hpush, Array.getElem?_push, if_neg (Nat.ne_of_lt ho)]
    rfl
  have hcases : ∀ other q, g.process? other = some q →
      f.process? other = some q ∨ other = f.processes.size ∧ q = p := by
    intro other q hq
    rw [process?, hpush, Array.getElem?_push] at hq
    split at hq
    · exact .inr ⟨‹_›, (Option.some.inj hq).symm⟩
    · exact .inl hq
  refine ⟨⟨said, ?_, fun other q hq => ?_⟩, fun other q hq => ?_⟩
  · rw [hj, hnotes]
    refine List.map_congr_left fun entry he => ?_
    rw [hold entry.1 (hlt entry he)]
  · rcases hcases other q hq with hq | ⟨rfl, rfl⟩
    · exact hlines other q hq
    · have hnone : said.filter (·.1 == f.processes.size) = [] :=
        List.filter_eq_nil_iff.mpr fun entry he => by simpa using Nat.ne_of_lt (hlt entry he)
      rw [hnone, hp.lines]
      cases q.echo <;> rfl
  · rcases hcases other q hq with hq | ⟨rfl, rfl⟩
    · exact hsealed other q hq
    · exact Supervised.sealed_of_open hp.closed

theorem Calls.audible (hc : Calls k f g) (h : f.Audible) : g.Audible := by
  induction hc with
  | refl => exact h
  | report _ hn ih =>
    refine ih.of_eq ?_ rfl
    exact (echoes_report _ _).trans (by rw [hn.filter, List.append_nil])
  | signalProcess p signal _ ih => exact ih.of_eq rfl rfl
  | signalGroup pgid signal _ ih => exact ih.of_eq rfl rfl
  | setLog _ hl hc ih => exact ih.setLog hl hc
  | registry _ _ ih => exact ih.of_eq rfl rfl
  | @start g settings request _ _ ih =>
    rcases start_cases g settings request with
      hs | ⟨launch, ⟨reason, -, hs⟩ | ⟨p, notes, -, hfresh, -, hn, hs⟩⟩
    · rw [hs]
      exact ih
    · rw [hs]
      exact ih.of_eq rfl rfl
    · rw [hs]
      refine ih.push ?_ rfl hfresh
      exact (echoes_report _ _).trans (by rw [hn.filter, List.append_nil]; rfl)

theorem audible_stepEach {step : Supervised → Scene → Scene × Supervised}
    (hstep : Supervised.Tells step) (ids : List ProcessId) (h : f.Audible) :
    (f.stepEach step ids).Audible := by
  induction ids generalizing f with
  | nil => exact h
  | cons id ids ih =>
    refine ih (f := stepProcess step f id) ?_
    unfold stepProcess
    cases hp : f.processes[id]? with
    | none => exact h
    | some p =>
      obtain ⟨lines, htold, hj, hsealed⟩ := hstep p f.scene (h.2 id p hp)
      refine h.replace hp ?_ (fun other he => ?_) htold hj hsealed
      · exact Array.getElem?_setIfInBounds_self_of_lt (Array.getElem?_eq_some_iff.mp hp).1
      · exact Array.getElem?_setIfInBounds_ne (Ne.symm he)

theorem Audible.readOutputs (h : f.Audible) : f.readOutputs.Audible :=
  audible_stepEach Supervised.tells_readOutput _ h

theorem Audible.watchEnds (h : f.Audible) : f.watchEnds.Audible :=
  audible_stepEach Supervised.tells_reportEnd _
    (audible_stepEach Supervised.tells_giveUpReading _
      (audible_stepEach Supervised.tells_noticeExit _ h))

end Fleet

namespace Session

open Timeline

/-- Whatever goes on in a session, in whatever order, its echo is complete. -/
theorem audible_later {t u : Timeline Session Activity Result} (h : t.state.fleet.Audible)
    (hlater : Later machinery t u) : u.state.fleet.Audible := by
  refine Later.induction (m := machinery) (t := t)
    (P := fun u : Timeline Session Activity Result => u.state.fleet.Audible) ?_ ?_ ?_ ?_ ?_ h hlater
  · exact fun u step hu => (calls_launch u step).audible hu
  · exact fun u moment hu => hu.of_eq rfl rfl
  · exact fun u hu => hu.readOutputs
  · exact fun u hu => hu.watchEnds
  · exact fun u task hu => (calls_pollTask u task).audible hu

theorem audible_afresh (s : Session) (w : System) (others : List Birth) :
    (s.afresh w others).fleet.Audible := by
  refine ⟨⟨[], rfl, fun id p hp => ?_⟩, fun id p hp => ?_⟩
  · cases hp
  · cases hp

end Session

end Overseer
