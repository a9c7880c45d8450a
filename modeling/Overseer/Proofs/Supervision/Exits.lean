import Overseer.Proofs.Supervision.Chronicles
import Overseer.Proofs.Supervision.Enduring

/-!
# Exits

That a process has exited, that its exit code is known and that its log is closed are one and the
same, at every moment; from then on nothing of the process changes but the queues of its log. To say
that nothing is ever recorded in a closed log, reading and reporting are given a second time, so
that they fail as soon as the log refuses a line (`readOutputs?`, `watchEnds?`): they never do. -/

namespace Overseer

open Lines World

namespace OutputLog

def appendAll? (log : OutputLog) (lines : Array String) : Option OutputLog :=
  lines.toList.foldlM append? log

theorem append?_of_open {log : OutputLog} (h : log.closed = false) (line : String) :
    log.append? line = some { log.put (.line line) with lines := log.lines.push line } := by
  unfold append?
  rw [h]
  rfl

theorem appendAll?_of_open {log : OutputLog} (h : log.closed = false) (lines : Array String) :
    log.appendAll? lines = some (log.appendAll lines) := by
  unfold appendAll? appendAll
  rw [← Array.foldl_toList]
  generalize lines.toList = lines
  induction lines generalizing log with
  | nil => rfl
  | cons line lines ih =>
    have hopen : { log.put (.line line) with lines := log.lines.push line }.closed = false := h
    rw [List.foldlM_cons, List.foldl_cons, append?_of_open h]
    exact ih hopen

end OutputLog

namespace Supervised

def record? (p : Supervised) (lines : Array String) : Option (Supervised × List Note) :=
  (p.log.appendAll? lines).map fun log => ({ p with log }, p.echoOf lines.toList)

def readChunk? (p : Supervised) (bytes : List UInt8) : Option (Supervised × List Note) :=
  match p.splitter.feed bytes with
  | (splitter, .ok lines) => { p with splitter }.record? lines
  | (splitter, .error cause) => some ({ p with splitter, reader := .failed cause.message }, [])

def readChunks? (p : Supervised) : List (List UInt8) → Option (Supervised × List Note)
  | [] => some (p, [])
  | bytes :: rest =>
    match p.reader with
    | .reading => do
      let (p, notes) ← p.readChunk? bytes
      let (p, more) ← readChunks? p rest
      return (p, notes ++ more)
    | _ => some (p, [])

def readOutput? (p : Supervised) (s : Scene) : Option (Scene × Supervised) :=
  match p.reader with
  | .reading =>
    match s.system.pipe? p.child with
    | none => some (s, { p with reader := .finished })
    | some pipe => do
      let (p, notes) ← p.readChunks? (reads pipe.state pipe.unread.flatten)
      return ({ s with system := s.system.emptyPipe p.child }.report notes,
        { p with reader := p.readerAfter pipe })
  | _ => some (s, p)

def recordRest? (p : Supervised) : Option (Supervised × List Note) :=
  match p.splitter.flush with
  | (splitter, .ok lines) => { p with splitter }.record? lines
  | (splitter, .error _) => some ({ p with splitter }, [])

def complete? (p : Supervised) (code : Int) : Option (Supervised × List Note) := do
  let (p, lineNotes) ← p.recordRest?
  let (log, closeNotes) := p.log.close
  let p := { p with log, phase := .completed code }
  return (p, lineNotes ++ closeNotes ++ [p.completedNote code])

/-- Reports the end when the shell has ended and nothing more is read, unless the log refuses the
last line. -/
def reportEnd? (p : Supervised) (s : Scene) : Option (Scene × Supervised) :=
  match p.phase, p.reader with
  | .draining code _, .finished =>
    (p.complete? code).map fun (p, notes) => (s.report notes, p)
  | .draining code _, .failed text =>
    (p.complete? code).map fun (completed, notes) =>
      (s.report (p.failedNote text :: notes), completed)
  | _, _ => some (s, p)

end Supervised

namespace Fleet

def stepProcess? (step : Supervised → Scene → Option (Scene × Supervised)) (f : Fleet)
    (id : ProcessId) : Option Fleet :=
  match f.processes[id]? with
  | none => some f
  | some p =>
    (step p f.scene).map fun (scene, p) =>
      { f with scene, processes := f.processes.setIfInBounds id p }

def stepEach? (f : Fleet) (step : Supervised → Scene → Option (Scene × Supervised))
    (ids : List ProcessId) : Option Fleet :=
  ids.foldlM (stepProcess? step) f

def readOutputs? (f : Fleet) : Option Fleet :=
  f.stepEach? Supervised.readOutput? (List.range f.processes.size)

def watchEnds? (f : Fleet) : Option Fleet :=
  let ids := f.ended
  ((f.stepEach Supervised.noticeExit ids).stepEach Supervised.giveUpReading ids).stepEach?
    Supervised.reportEnd? ids

end Fleet

namespace Supervised

variable {p q : Supervised}

/-- The log is closed when the end has been reported, and not before; then nothing is read. -/
structure Consistent (p : Supervised) : Prop where
  closed_iff : p.log.closed = true ↔ p.exitCode?.isSome = true
  reader : p.log.closed = true → p.reader ≠ .reading

theorem isRunning_eq_false_iff : p.isRunning = false ↔ p.exitCode?.isSome = true := by
  cases h : p.exitCode? <;> simp [isRunning, h]

theorem exitCode?_eq_some_iff {code : Int} :
    p.exitCode? = some code ↔ p.phase = .completed code := by
  unfold exitCode?
  split
  next c hc => simp [hc]
  next hn =>
    constructor
    · intro h
      cases h
    · intro h
      exact absurd h (hn code)

theorem exitCode?_eq_none (h : ∀ code, p.phase ≠ .completed code) : p.exitCode? = none := by
  cases hx : p.exitCode? with
  | none => rfl
  | some code => exact absurd (exitCode?_eq_some_iff.mp hx) (h code)

/-- A process whose log is open and whose end has not been reported is consistent, whatever is
read. -/
theorem consistent_of_open (hopen : p.log.closed = false)
    (hphase : ∀ code, p.phase ≠ .completed code) : p.Consistent where
  closed_iff := by simp [hopen, exitCode?_eq_none hphase]
  reader h := by simp [hopen] at h

namespace Consistent

theorem open_of_not_completed (h : p.Consistent) (hphase : ∀ code, p.phase ≠ .completed code) :
    p.log.closed = false := by
  have hclosed := h.closed_iff
  rw [exitCode?_eq_none hphase] at hclosed
  simpa using hclosed

theorem open_of_reading (h : p.Consistent) (hr : p.reader = .reading) : p.log.closed = false := by
  by_contra hclosed
  exact h.reader (by simpa using hclosed) hr

theorem not_completed_of_reading (h : p.Consistent) (hr : p.reader = .reading) (code : Int) :
    p.phase ≠ .completed code := by
  intro hphase
  have hsome : p.exitCode?.isSome = true := by rw [exitCode?_eq_some_iff.mpr hphase]; rfl
  exact h.reader (h.closed_iff.mpr hsome) hr

theorem same (h : p.Consistent) (hs : p.Same q) : q.Consistent := by
  obtain ⟨log, rfl, -, hc⟩ := hs
  exact ⟨(by rw [hc]; exact h.closed_iff), fun hclosed => h.reader (hc.symm.trans hclosed)⟩

end Consistent

theorem Fresh.consistent (h : p.Fresh) : p.Consistent :=
  consistent_of_open h.closed fun code => by simp [h.phase]

theorem phase_readChunks (p : Supervised) (chunks : List (List UInt8)) :
    (p.readChunks chunks).1.phase = p.phase := by
  have hchunk : ∀ (p : Supervised) bytes, (p.readChunk bytes).1.phase = p.phase := by
    intro p bytes
    unfold readChunk
    split <;> rfl
  induction chunks generalizing p with
  | nil => rfl
  | cons bytes chunks ih =>
    rw [readChunks]
    split
    · exact (ih _).trans (hchunk p bytes)
    · rfl

theorem consistent_readOutput (h : p.Consistent) (s : Scene) : (p.readOutput s).2.Consistent := by
  unfold readOutput
  split
  next hr =>
    have hphase := h.not_completed_of_reading hr
    split
    · exact consistent_of_open (h.open_of_reading hr) hphase
    next pipe hp =>
      obtain ⟨lines, htold⟩ := utters_readChunks (h.open_of_reading hr)
        (reads pipe.state pipe.unread.flatten)
      refine consistent_of_open htold.closed fun code => ?_
      have hsame := p.phase_readChunks (reads pipe.state pipe.unread.flatten)
      exact fun hc => hphase code (hsame.symm.trans hc)
  · exact h

theorem consistent_noticeExit (h : p.Consistent) (s : Scene) : (p.noticeExit s).2.Consistent := by
  unfold noticeExit
  split
  next code hphase hcode =>
    exact consistent_of_open (h.open_of_not_completed fun code => by simp [hphase]) (by simp)
  · exact h

theorem consistent_giveUpReading (h : p.Consistent) (s : Scene) :
    (p.giveUpReading s).2.Consistent := by
  unfold giveUpReading
  split
  next code deadline hphase hr =>
    split
    · exact consistent_of_open (h.open_of_reading hr) (h.not_completed_of_reading hr)
    · exact h
  · exact h

theorem consistent_complete (hopen : p.log.closed = false) (hr : p.reader ≠ .reading) (code : Int) :
    (p.complete code).1.Consistent := by
  obtain ⟨lines, htold⟩ := utters_recordRest hopen
  have hclosed : p.recordRest.1.log.close.1.closed = true := by
    unfold OutputLog.close
    rw [htold.closed]
    rfl
  refine ⟨⟨fun _ => rfl, fun _ => hclosed⟩, fun _ => ?_⟩
  have hreader : (p.complete code).1.reader = p.reader := reader_recordRest p
  rw [hreader]
  exact hr

theorem consistent_reportEnd (h : p.Consistent) (s : Scene) : (p.reportEnd s).2.Consistent := by
  have hend : ∀ (code : Int) deadline, p.phase = .draining code deadline → p.reader ≠ .reading →
      (p.complete code).1.Consistent := fun code deadline hphase hr =>
    consistent_complete (h.open_of_not_completed fun other => by simp [hphase]) hr code
  unfold reportEnd
  split
  next code deadline hphase hr => exact hend code deadline hphase (by simp [hr])
  next code deadline text hphase hr => exact hend code deadline hphase (by simp [hr])
  · exact h

theorem enduring_consistent : Enduring fun p q => p.Consistent → q.Consistent where
  refl _ h := h
  trans h k hp := k (h hp)
  same hs h := h.same hs
  readOutput _ s h := consistent_readOutput h s
  noticeExit _ s h := consistent_noticeExit h s
  giveUpReading _ s h := consistent_giveUpReading h s
  reportEnd _ s h := consistent_reportEnd h s

def Exited (p : Supervised) : Prop := p.exitCode?.isSome = true ∧ p.reader ≠ .reading

theorem Exited.same (h : p.Exited) (hs : p.Same q) : q.Exited := by
  obtain ⟨log, rfl, -, -⟩ := hs
  exact h

theorem Exited.phase (h : p.Exited) : ∃ code, p.phase = .completed code := by
  obtain ⟨code, hcode⟩ := Option.isSome_iff_exists.mp h.1
  exact ⟨code, exitCode?_eq_some_iff.mp hcode⟩

/-- Whatever is done with a process whose end has been reported, it stays the same. -/
theorem enduring_exited : Enduring fun p q => p.Exited → p.Same q where
  refl p _ := .refl p
  trans h k hp := (h hp).trans (k (hp.same (h hp)))
  same hs _ := hs
  readOutput p s h := by
    rw [readOutput_of_not_reading h.2]
    exact .refl p
  noticeExit p s h := by
    obtain ⟨code, hphase⟩ := h.phase
    rw [noticeExit_of_not_running (by simp [hphase])]
    exact .refl p
  giveUpReading p s h := by
    rw [giveUpReading_of_not_reading h.2]
    exact .refl p
  reportEnd p s h := by
    obtain ⟨code, hphase⟩ := h.phase
    rw [reportEnd_of_completed hphase]
    exact .refl p

theorem Consistent.exited (h : p.Consistent) (hx : p.exitCode?.isSome = true) : p.Exited :=
  ⟨hx, h.reader (h.closed_iff.mpr hx)⟩

theorem record?_of_open (h : p.log.closed = false) (lines : Array String) :
    p.record? lines = some (p.record lines) := by
  rw [record?, OutputLog.appendAll?_of_open h]
  rfl

theorem readChunk?_of_open (h : p.log.closed = false) (bytes : List UInt8) :
    p.readChunk? bytes = some (p.readChunk bytes) := by
  unfold readChunk? readChunk
  obtain ⟨splitter, outcome⟩ := p.splitter.feed bytes
  cases outcome with
  | ok lines => exact record?_of_open (p := { p with splitter }) h lines
  | error cause => rfl

theorem readChunks?_of_open (h : p.log.closed = false) (chunks : List (List UInt8)) :
    p.readChunks? chunks = some (p.readChunks chunks) := by
  induction chunks generalizing p with
  | nil => rfl
  | cons bytes chunks ih =>
    rw [readChunks?, readChunks]
    cases p.reader with
    | reading =>
      obtain ⟨lines, htold⟩ := utters_readChunk h bytes
      dsimp only
      rw [readChunk?_of_open h]
      simp only [Option.bind_eq_bind, Option.bind_some, ih htold.closed]
      rfl
    | finished => rfl
    | failed text => rfl

theorem Consistent.readOutput? (h : p.Consistent) (s : Scene) :
    p.readOutput? s = some (p.readOutput s) := by
  unfold Supervised.readOutput? readOutput
  cases hr : p.reader with
  | reading =>
    cases s.system.pipe? p.child with
    | none => rfl
    | some pipe =>
      dsimp only
      rw [readChunks?_of_open (h.open_of_reading hr)]
      rfl
  | finished => rfl
  | failed text => rfl

theorem complete?_of_open (h : p.log.closed = false) (code : Int) :
    p.complete? code = some (p.complete code) := by
  have hrest : p.recordRest? = some p.recordRest := by
    unfold recordRest? recordRest
    obtain ⟨splitter, outcome⟩ := p.splitter.flush
    cases outcome with
    | ok lines => exact record?_of_open (p := { p with splitter }) h lines
    | error cause => rfl
  unfold complete?
  rw [hrest]
  rfl

theorem Consistent.reportEnd? (h : p.Consistent) (s : Scene) :
    p.reportEnd? s = some (p.reportEnd s) := by
  unfold Supervised.reportEnd? reportEnd
  cases hphase : p.phase with
  | running => rfl
  | completed code => rfl
  | draining code deadline =>
    have hopen := h.open_of_not_completed fun other => by simp [hphase]
    cases p.reader with
    | reading => rfl
    | finished =>
      dsimp only
      rw [complete?_of_open hopen]
      rfl
    | failed text =>
      dsimp only
      rw [complete?_of_open hopen]
      rfl

end Supervised

namespace Fleet

variable {f : Fleet}

/-- A step that never fails for a consistent process, and leaves it consistent, can be taken with
all of them. -/
theorem Each.stepEach? {step : Supervised → Scene → Scene × Supervised}
    {step? : Supervised → Scene → Option (Scene × Supervised)} (h : f.Each Supervised.Consistent)
    (hstep : ∀ p s, p.Consistent → (step p s).2.Consistent)
    (hsome : ∀ (p : Supervised) s, p.Consistent → step? p s = some (step p s))
    (ids : List ProcessId) : f.stepEach? step? ids = some (f.stepEach step ids) := by
  have hone : ∀ (f : Fleet) id, f.Each Supervised.Consistent →
      stepProcess? step? f id = some (stepProcess step f id) := by
    intro f id hf
    unfold stepProcess? stepProcess
    cases hp : f.processes[id]? with
    | none => rfl
    | some p =>
      dsimp only
      rw [hsome p f.scene (hf id p hp)]
      rfl
  unfold Fleet.stepEach? Fleet.stepEach
  induction ids generalizing f with
  | nil => rfl
  | cons id ids ih =>
    rw [List.foldlM_cons, List.foldl_cons, hone f id h]
    exact ih (h.stepEach hstep [id])

theorem Each.readOutputs? (h : f.Each Supervised.Consistent) :
    f.readOutputs? = some f.readOutputs :=
  h.stepEach? (fun _ s hp => Supervised.consistent_readOutput hp s)
    (fun _ s hp => hp.readOutput? s) _

theorem Each.watchEnds? (h : f.Each Supervised.Consistent) : f.watchEnds? = some f.watchEnds := by
  have hnoticed := h.stepEach (fun _ s hp => Supervised.consistent_noticeExit hp s) f.ended
  have hgiven := hnoticed.stepEach (fun _ s hp => Supervised.consistent_giveUpReading hp s) f.ended
  exact hgiven.stepEach? (fun _ s hp => Supervised.consistent_reportEnd hp s)
    (fun _ s hp => hp.reportEnd? s) _

end Fleet

namespace Session

open Timeline

variable {s : Session} {w : System} {others : List Birth} {id : ProcessId} {p : Supervised}
  {t u : Timeline Session Activity Result}

theorem consistent_later (h : Later machinery { state := s.afresh w others } t) :
    t.state.fleet.Each Supervised.Consistent := by
  refine Supervised.enduring_consistent.each (fun _ hp => hp.consistent) h fun id p hp => ?_
  cases hp

theorem exited_later (hp : t.state.fleet.process? id = some p) (hx : p.Exited)
    (h : Later machinery t u) : ∃ q, u.state.fleet.process? id = some q ∧ p.Same q := by
  obtain ⟨q, hq, hs⟩ := Supervised.enduring_exited.later h hp
  exact ⟨q, hq, hs hx⟩

/-- At every time a process has exited if and only if its log is closed, and if and only if its exit
code is known. From then on it has exited for good, its code, its lines and its snapshot are the
same ever after, and its log is closed. No line is ever refused: neither what is read nor the last
line comes to a closed log. -/
theorem exit_closes_log (s : Session) (w : System) (others : List Birth)
    {t : Timeline Session Activity Result}
    (h : Later machinery { state := s.afresh w others } t) :
    (∀ id p, t.state.fleet.process? id = some p →
      (p.isRunning = false ↔ p.log.closed = true) ∧
      (p.log.closed = true ↔ p.exitCode?.isSome = true) ∧
      (p.isRunning = false → ∀ u, Later machinery t u →
        ∃ q, u.state.fleet.process? id = some q ∧ q.isRunning = false ∧ q.log.closed = true ∧
          q.exitCode? = p.exitCode? ∧ q.log.lines = p.log.lines ∧
          q.log.snapshot = p.log.snapshot)) ∧
    t.state.fleet.readOutputs? = some t.state.fleet.readOutputs ∧
    t.state.fleet.watchEnds? = some t.state.fleet.watchEnds := by
  have hall := consistent_later h
  refine ⟨fun id p hp => ?_, hall.readOutputs?, hall.watchEnds?⟩
  have hconsistent := hall id p hp
  refine ⟨Supervised.isRunning_eq_false_iff.trans hconsistent.closed_iff.symm,
    hconsistent.closed_iff, fun hrunning u hu => ?_⟩
  have hx := Supervised.isRunning_eq_false_iff.mp hrunning
  obtain ⟨q, hq, log, rfl, hl, hc⟩ := exited_later hp (hconsistent.exited hx) hu
  refine ⟨_, hq, hrunning, hc.trans (hconsistent.closed_iff.mpr hx), rfl, hl, ?_⟩
  dsimp only
  rw [OutputLog.snapshot, hl, OutputLog.snapshot]

/-- A pipe that is held open is given up when its limit has run out; what comes through it
afterwards stays unread, and a caller who then stops the process changes nothing. -/
theorem exit_closes_log_of_held_pipe :
    let program : Program :=
      { shell := { pid := 100, ppid := 1, pgid := 100 }, holdsPipe := true
        events := [(3, .output [97, 10, 98]), (5, .exit 7), (1000000007, .output [99, 10])] }
    let start : Timeline Session Activity Result :=
      { state := ({} : Session).afresh { programs := [.program program] } [] }
    let first : List (Move Command) :=
      [.begin (.act (.start "h" { command := "wrangler dev" } false)), .tick, .tick, .tick]
    let t := play machinery start first
    let u := play machinery t [.begin (.act (.kill "h")), .tick]
    t.state.now = 1000000005 ∧ u.state.now = 1000000007 ∧ u.state.fleet.unread 0 = [[99, 10]] ∧
      ∃ p q, t.state.fleet.process? 0 = some p ∧ u.state.fleet.process? 0 = some q ∧
        p.isRunning = false ∧ p.log.closed = true ∧ p.exitCode? = some 7 ∧
        q.isRunning = false ∧ q.log.closed = true ∧ q.exitCode? = some 7 ∧
        q.log.lines = p.log.lines ∧ q.log.snapshot = "a\nb" := by
  intro program start first t u
  have hfound : (t.state.fleet.process? 0).map
      (fun p => (p.isRunning, p.exitCode?, p.log.snapshot)) = some (false, some 7, "a\nb") := by
    decide +kernel
  have htimes : t.state.now = 1000000005 ∧ u.state.now = 1000000007 ∧
      u.state.fleet.unread 0 = [[99, 10]] := by decide +kernel
  obtain ⟨p, hp, he⟩ := Option.map_eq_some_iff.mp hfound
  obtain ⟨hrunning, hcode, hsnapshot⟩ :
      p.isRunning = false ∧ p.exitCode? = some 7 ∧ p.log.snapshot = "a\nb" := by simpa using he
  have hlater : Later machinery start t := Later.refl.play first
  obtain ⟨hexit, -⟩ := exit_closes_log ({} : Session) { programs := [.program program] } [] hlater
  obtain ⟨hclosed, -, hafter⟩ := hexit 0 p hp
  obtain ⟨q, hq, hqr, hqc, hqx, hql, hqs⟩ := hafter hrunning u (Later.refl.play _)
  exact ⟨htimes.1, htimes.2.1, htimes.2.2, p, q, hp, hq, hrunning, hclosed.mp hrunning, hcode, hqr,
    hqc, hqx.trans hcode, hql, hqs.trans hsnapshot⟩

end Session

end Overseer
