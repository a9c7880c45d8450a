import Overseer.Proofs.Supervision.Exits
import Overseer.Proofs.Supervision.Spawning

/-!
# What is heard of a process

Reading and watching add lines to the log of a process and close it, and leave the queues of those
who wait for a line to them. So a wait decides by the lines of the log alone, whenever it has heard
them (`OutputLog.Heard.decision`).
-/

namespace Overseer

open Pattern World

namespace OutputLog

variable {p : QueueId → Prop} {a b c log after : OutputLog}

theorem Use.trans (h : Use p a b) (k : Use p b c) : Use p a c := by
  induction k with
  | refl => exact h
  | append _ ha ih => exact ih.append ha
  | close _ ih => exact ih.close
  | subscribe _ ih => exact ih.subscribe
  | unsubscribe _ hp ih => exact ih.unsubscribe hp
  | drain _ hp ih => exact ih.drain hp

theorem use_appendAll (p : QueueId → Prop) (log : OutputLog) (lines : Array String) :
    Use p log (log.appendAll lines) := by
  unfold appendAll
  rw [← Array.foldl_toList]
  refine List.foldlRecOn (motive := Use p log) lines.toList _ .refl fun b hb line _ => ?_
  cases ha : b.append? line with
  | none => exact hb
  | some after => exact hb.append ha

structure Heard (pattern : Compiled) (q : QueueId) (heard : Nat) (log : OutputLog) : Prop where
  backlog : Backlog log q heard
  missed : ∀ line ∈ log.lines.toList.take heard, pattern.search line = none

variable {pattern : Compiled} {q : QueueId} {heard : Nat}

/-- What is done with other queues, and lines that come, are not heard at once. -/
theorem Heard.use (h : Heard pattern q heard log) (hu : Use (· ≠ q) log after) :
    Heard pattern q heard after where
  backlog := hu.backlog h.backlog
  missed line hl := by
    obtain ⟨more, hmore⟩ := hu.extension.kept
    have hle : heard ≤ log.lines.toList.length := by simpa using h.backlog.heard_le
    rw [← hmore, List.take_append_of_le_length hle] at hl
    exact h.missed line hl

theorem Heard.decision (h : Heard pattern q heard log) {w : LineWait} (hw : w.pattern = pattern)
    (now : Instant) : w.decision now heard log = w.decision now 0 log := by
  have hfirst : log.lines.toList.findSome? w.pattern.search =
      (log.lines.toList.drop heard).findSome? w.pattern.search := by
    conv_lhs => rw [← List.take_append_drop heard log.lines.toList, List.findSome?_append]
    rw [List.findSome?_eq_none_iff.mpr fun line hl => hw ▸ h.missed line hl, Option.none_or]
  rw [LineWait.decision, LineWait.decision, List.drop_zero, hfirst]

/-- A wait that goes on has heard all lines by then, and otherwise it has come to what they decide.
-/
theorem Heard.poll {w : LineWait} (h : Heard pattern w.queue heard log) (hw : w.pattern = pattern)
    (now : Instant) :
    w.decision now 0 log = none ∧ (w.poll now log).2.2 = .pending w ∧
        Heard pattern w.queue log.lines.size (w.poll now log).1 ∨
      ∃ result, w.decision now 0 log = some result ∧ (w.poll now log).2.2 = .done result := by
  have hpoll : (w.poll now log).2.2 = _ := LineWait.poll_eq_decision h.backlog
  have hkept : w.decision now heard log = none →
      Backlog (w.poll now log).1 w.queue log.lines.size := LineWait.backlog_poll_self h.backlog
  rw [h.decision hw] at hpoll hkept
  cases hd : w.decision now 0 log with
  | some result =>
    rw [hd] at hpoll
    exact .inr ⟨result, rfl, hpoll⟩
  | none =>
    rw [hd] at hpoll
    refine .inl ⟨rfl, hpoll, hkept hd, fun line hl => hw ▸ ?_⟩
    obtain ⟨hnone, -⟩ := LineWait.decision_eq_none_iff.mp hd
    rw [LineWait.lines_poll] at hl
    exact hnone line (List.mem_of_mem_take hl)

end OutputLog

namespace Supervised

open OutputLog

variable {p : QueueId → Prop} {q : QueueId}

theorem use_record (p : QueueId → Prop) (x : Supervised) (lines : Array String) :
    Use p x.log (x.record lines).1.log := use_appendAll p x.log lines

theorem use_readChunk (p : QueueId → Prop) (x : Supervised) (bytes : List UInt8) :
    Use p x.log (x.readChunk bytes).1.log := by
  unfold readChunk
  split
  · exact use_record p _ _
  · exact .refl

theorem use_readChunks (p : QueueId → Prop) (x : Supervised) (chunks : List (List UInt8)) :
    Use p x.log (x.readChunks chunks).1.log := by
  induction chunks generalizing x with
  | nil => exact .refl
  | cons bytes rest ih =>
    rw [readChunks]
    split
    · exact (use_readChunk p x bytes).trans (ih _)
    · exact .refl

theorem use_readOutput (p : QueueId → Prop) (x : Supervised) (s : Scene) :
    Use p x.log (x.readOutput s).2.log := by
  unfold readOutput
  split
  · split
    · exact .refl
    · exact use_readChunks p x _
  · exact .refl

theorem use_complete (p : QueueId → Prop) (x : Supervised) (code : Int) :
    Use p x.log (x.complete code).1.log := by
  have hrest : Use p x.log x.recordRest.1.log := by
    unfold recordRest
    split
    · exact use_record p _ _
    · exact .refl
  exact hrest.close

theorem use_reportEnd (p : QueueId → Prop) (x : Supervised) (s : Scene) :
    Use p x.log (x.reportEnd s).2.log := by
  unfold reportEnd
  split
  · exact use_complete p x _
  · exact use_complete p x _
  · exact .refl

theorem log_noticeExit (x : Supervised) (s : Scene) : (x.noticeExit s).2.log = x.log := by
  unfold noticeExit
  split <;> rfl

theorem log_giveUpReading (x : Supervised) (s : Scene) : (x.giveUpReading s).2.log = x.log := by
  unfold giveUpReading
  split
  · split <;> rfl
  · rfl

end Supervised

namespace Fleet

open OutputLog

variable {f : Fleet} {id : ProcessId}

/-- What is done with a process leaves the queues of its log to those who wait. -/
theorem use_stepEach (p : QueueId → Prop) {step : Supervised → Scene → Scene × Supervised}
    (hstep : ∀ x s, Use p x.log (step x s).2.log) (ids : List ProcessId)
    (h : (f.process? id).isSome = true) : Use p (f.log id) ((f.stepEach step ids).log id) := by
  obtain ⟨x, hx⟩ := Option.isSome_iff_exists.mp h
  obtain ⟨y, hy, hu⟩ := process_stepEach (R := fun x y => Use p x.log y.log) (fun _ => .refl)
    (fun h k => h.trans k) hstep ids hx
  rw [log_eq hx, log_eq hy]
  exact hu

theorem isSome_stepEach (step : Supervised → Scene → Scene × Supervised) (ids : List ProcessId)
    (h : (f.process? id).isSome = true) : ((f.stepEach step ids).process? id).isSome = true := by
  obtain ⟨x, hx⟩ := Option.isSome_iff_exists.mp h
  obtain ⟨y, hy, -⟩ : ∃ y, (f.stepEach step ids).process? id = some y ∧ True :=
    process_stepEach (R := fun _ _ => True) (fun _ => trivial) (fun _ _ => trivial)
      (fun _ _ => trivial) ids hx
  rw [hy]
  rfl

theorem log_setLog {x : Supervised} (hx : f.process? id = some x) (log : OutputLog) :
    (f.setLog id log).log id = log := by
  have hset : (f.setLog id log).process? id = some { x with log } := by
    rw [process?_setLog, if_pos rfl, hx]
    rfl
  exact log_eq hset

theorem use_readOutputs (p : QueueId → Prop) (h : (f.process? id).isSome = true) :
    Use p (f.log id) (f.readOutputs.log id) :=
  use_stepEach p (Supervised.use_readOutput p) _ h

theorem use_watchEnds (p : QueueId → Prop) (h : (f.process? id).isSome = true) :
    Use p (f.log id) (f.watchEnds.log id) := by
  have hnotice : ∀ x s, Use p x.log (Supervised.noticeExit x s).2.log := fun x s =>
    Supervised.log_noticeExit x s ▸ .refl
  have hgive : ∀ x s, Use p x.log (Supervised.giveUpReading x s).2.log := fun x s =>
    Supervised.log_giveUpReading x s ▸ .refl
  have hnoticed := isSome_stepEach Supervised.noticeExit f.ended h
  have hgiven := isSome_stepEach Supervised.giveUpReading f.ended hnoticed
  exact ((use_stepEach p hnotice f.ended h).trans (use_stepEach p hgive f.ended hnoticed)).trans
    (use_stepEach p (Supervised.use_reportEnd p) f.ended hgiven)

end Fleet

namespace World.System

theorem signals_advance (w : System) (t : Instant) : (w.advance t).signals = w.signals :=
  signals_foldl (fun w (entry : Instant × Happening) =>
    signals_apply { w with now := entry.1 } entry.2)
    _ _

theorem signals_emptyPipe (w : System) (c : ChildId) : (w.emptyPipe c).signals = w.signals := rfl

end World.System

theorem Fleet.signals_readOutputs (f : Fleet) :
    f.readOutputs.scene.system.signals = f.scene.system.signals :=
  Fleet.system_readOutputs (P := fun w => w.signals = f.scene.system.signals)
    (fun w c h => (w.signals_emptyPipe c).trans h) rfl

end Overseer
