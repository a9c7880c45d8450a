import Overseer.Proofs.Lines.Joining
import Overseer.Proofs.Supervision.Hearing
import Overseer.Readers

/-!
# Snapshots

A snapshot only grows: what is done with a log adds to it or leaves it as it is
(`OutputLog.Extends.snapshot`). The lines that are recorded of a process have no breaks in them
(`Supervised.Clean`), whatever its program writes. So they can be told from a snapshot alone
(`OutputLog.split_snapshot`).
-/

namespace Overseer

open Lines World Timeline

namespace OutputLog

variable {log after : OutputLog} {line : String}

theorem Extends.snapshot (h : Extends log after) :
    ∃ more, after.snapshot = log.snapshot ++ more := by
  obtain ⟨lines, hlines⟩ := h.kept
  rw [OutputLog.snapshot, OutputLog.snapshot, ← hlines]
  by_cases hold : log.lines.toList = []
  · exact ⟨"\n".intercalate lines, by simp [hold]⟩
  by_cases hnew : lines = []
  · exact ⟨"", by simp [hnew]⟩
  · refine ⟨"\n" ++ "\n".intercalate lines, ?_⟩
    rw [String.intercalate_append_of_ne_nil hold hnew, String.append_assoc]

/-- Lines without breaks can be told from a snapshot, if there are any. -/
theorem split_snapshot (h : ∀ line ∈ log.lines.toList, Unbroken line.toList)
    (hsome : log.lines ≠ #[]) :
    (log.snapshot.split '\n').toList.map (·.copy) = log.lines.toList := by
  have hfree : ∀ line ∈ log.lines.toList, '\n' ∉ line.toList :=
    fun line hline hm => h line hline _ hm (.inl rfl)
  have hsplit := String.toList_split_intercalate hfree
  rwa [if_neg (by simpa using hsome)] at hsplit

theorem mem_intercalate {c : Char} {separator : String} {lines : List String}
    (h : c ∈ (separator.intercalate lines).toList) :
    c ∈ separator.toList ∨ ∃ line ∈ lines, c ∈ line.toList := by
  induction lines with
  | nil => simp at h
  | cons line lines ih =>
    by_cases hlines : lines = []
    · exact .inr ⟨line, List.mem_cons_self, by simpa [hlines] using h⟩
    · rw [String.intercalate_cons_of_ne_nil hlines, String.toList_append, String.toList_append] at h
      rcases List.mem_append.mp h with h | h
      · rcases List.mem_append.mp h with h | h
        · exact .inr ⟨line, List.mem_cons_self, h⟩
        · exact .inl h
      · exact (ih h).imp_right fun ⟨other, hother, hc⟩ =>
          ⟨other, List.mem_cons_of_mem line hother, hc⟩

theorem return_not_mem_snapshot (h : ∀ line ∈ log.lines.toList, Unbroken line.toList) :
    '\r' ∉ log.snapshot.toList := by
  intro hm
  rcases mem_intercalate hm with hm | ⟨line, hline, hm⟩
  · simp at hm
  · exact h line hline _ hm (.inr rfl)

theorem mem_appendAll {lines : Array String} (h : line ∈ (log.appendAll lines).lines.toList) :
    line ∈ log.lines.toList ∨ line ∈ lines.toList := by
  unfold appendAll at h
  rw [← Array.foldl_toList] at h
  generalize lines.toList = added at h ⊢
  induction added generalizing log with
  | nil => exact .inl h
  | cons first added ih =>
    rw [List.foldl_cons] at h
    rcases ih h with hline | hline
    · unfold append? at hline
      split at hline
      · exact .inl hline
      · rw [Option.getD_some, Array.toList_push] at hline
        rcases List.mem_append.mp hline with hline | hline
        · exact .inl hline
        · exact .inr (List.mem_cons.mpr (.inl (List.mem_singleton.mp hline)))
    · exact .inr (List.mem_cons_of_mem first hline)

theorem lines_close (log : OutputLog) : log.close.1.lines = log.lines := by
  rw [close_eq]
  split <;> rfl

end OutputLog

namespace Supervised

/-- No line that has been recorded has a break in it, nor has what is left open. -/
structure Clean (p : Supervised) : Prop where
  recorded : ∀ line ∈ p.log.lines.toList, Unbroken line.toList
  unfinished : p.splitter.state.Sound

variable {p q : Supervised}

theorem Clean.same (h : p.Clean) (hs : p.Same q) : q.Clean := by
  obtain ⟨log, rfl, hlines, -⟩ := hs
  exact ⟨fun line hline => h.recorded line (hlines ▸ hline), h.unfinished⟩

theorem Clean.fresh (h : p.Fresh) : p.Clean :=
  ⟨by simp [h.lines], h.splitter ▸ LineState.sound_empty⟩

theorem Clean.record (h : p.Clean) (step : StreamStep) {lines : Array String}
    {splitter : Splitter Octets.Decoder} (htake : p.splitter.take step = (splitter, .ok lines)) :
    ({ p with splitter }.record lines).1.Clean := by
  obtain ⟨hstate, hlines⟩ := Splitter.take_unbroken h.unfinished step
  rw [htake] at hstate hlines
  exact ⟨fun line hline => (OutputLog.mem_appendAll hline).elim (h.recorded line)
    (hlines lines rfl line), hstate⟩

theorem Clean.refused (h : p.Clean) (step : StreamStep) {cause : Octets.DecodeError}
    {splitter : Splitter Octets.Decoder} (htake : p.splitter.take step = (splitter, .error cause)) :
    { p with splitter }.Clean := by
  obtain ⟨hstate, -⟩ := Splitter.take_unbroken h.unfinished step
  rw [htake] at hstate
  exact ⟨h.recorded, hstate⟩

theorem Clean.readChunk (h : p.Clean) (bytes : List UInt8) : (p.readChunk bytes).1.Clean := by
  unfold Supervised.readChunk
  split
  next splitter lines htake => exact h.record (.feed bytes) htake
  next splitter cause htake =>
    have hrefused := h.refused (.feed bytes) htake
    exact ⟨hrefused.recorded, hrefused.unfinished⟩

theorem Clean.readChunks (h : p.Clean) (chunks : List (List UInt8)) :
    (p.readChunks chunks).1.Clean := by
  induction chunks generalizing p with
  | nil => exact h
  | cons bytes chunks ih =>
    rw [Supervised.readChunks]
    split
    · exact ih (h.readChunk bytes)
    · exact h

theorem Clean.complete (h : p.Clean) (code : Int) : (p.complete code).1.Clean := by
  have hrest : p.recordRest.1.Clean := by
    unfold recordRest
    split
    next splitter lines htake => exact h.record .flush htake
    next splitter cause htake => exact h.refused .flush htake
  refine ⟨fun line hline => hrest.recorded line ?_, hrest.unfinished⟩
  rwa [← OutputLog.lines_close]

theorem enduring_clean : Enduring fun p q => p.Clean → q.Clean where
  refl _ h := h
  trans h k hp := k (h hp)
  same hs h := h.same hs
  readOutput p s h := by
    unfold readOutput
    split
    · split
      · exact ⟨h.recorded, h.unfinished⟩
      · have hread := h.readChunks
        exact ⟨(hread _).recorded, (hread _).unfinished⟩
    · exact h
  noticeExit p s h := by
    unfold noticeExit
    split
    · exact ⟨h.recorded, h.unfinished⟩
    · exact h
  giveUpReading p s h := by
    unfold giveUpReading
    split
    · split
      · exact ⟨h.recorded, h.unfinished⟩
      · exact h
    · exact h
  reportEnd p s h := by
    unfold reportEnd
    split
    · exact h.complete _
    · exact h.complete _
    · exact h

theorem enduring_extends : Enduring fun p q => OutputLog.Extends p.log q.log where
  refl p := .refl p.log
  trans h k := h.trans k
  same h := by
    obtain ⟨log, rfl, hlines, hclosed⟩ := h
    exact .of_eq hlines hclosed
  readOutput p s := (use_readOutput (fun _ => True) p s).extension
  noticeExit p s := log_noticeExit p s ▸ .refl p.log
  giveUpReading p s := log_giveUpReading p s ▸ .refl p.log
  reportEnd p s := (use_reportEnd (fun _ => True) p s).extension

end Supervised

namespace Readers

variable {r : Readers} {command : Command}

def performAll (r : Readers) (commands : List Command) : Readers :=
  commands.foldl (fun r command => (r.perform command).1) r

theorem extends_perform (r : Readers) (command : Command) :
    r.log.Extends (r.perform command).1.log := by
  cases command with
  | append line =>
    simp only [perform]
    cases ha : r.log.append? line with
    | none => exact .refl r.log
    | some log => exact .append ha
  | close => exact .close r.log
  | subscribe name => exact .of_eq (OutputLog.lines_subscribe _) (OutputLog.closed_subscribe _)
  | unsubscribe name =>
    simp only [perform]
    split
    · exact .of_eq rfl rfl
    · exact .refl r.log
  | drain name =>
    simp only [perform]
    split
    · exact .of_eq rfl rfl
    · exact .refl r.log
  | lines => exact .refl r.log
  | snapshot => exact .refl r.log

theorem extends_performAll (r : Readers) (commands : List Command) :
    r.log.Extends (r.performAll commands).log := by
  induction commands generalizing r with
  | nil => exact .refl r.log
  | cons command commands ih => exact (r.extends_perform command).trans (ih _)

theorem perform_append_of_closed (h : r.log.closed = true) (line : String) :
    r.perform (.append line) = (r, [], .error .closedLog) := by
  simp [perform, OutputLog.append?, h]

theorem lines_perform_append (h : r.log.closed = false) (line : String) :
    (r.perform (.append line)).1.log.lines = r.log.lines.push line := by
  simp [perform, OutputLog.append?, h]

theorem lines_perform (h : r.log.closed = true ∨ ∀ line, command ≠ .append line) :
    (r.perform command).1.log.lines = r.log.lines := by
  rcases h with hc | hne
  · exact ((r.extends_perform command).final hc).2
  · cases command with
    | append line => exact absurd rfl (hne line)
    | close => exact OutputLog.lines_close r.log
    | subscribe name => exact OutputLog.lines_subscribe r.log
    | unsubscribe name =>
      simp only [perform]
      split <;> rfl
    | drain name =>
      simp only [perform]
      split <;> rfl
    | lines => rfl
    | snapshot => rfl

end Readers

namespace Session

/-- A snapshot only grows, and only by the lines that are added to an open log. From the snapshot of
a process the lines recorded can be told, if there are any, whatever its program has written and
whenever it is taken. -/
theorem snapshot_tells_lines :
    (∀ (r : Readers) (commands : List Readers.Command),
      ∃ more, (r.performAll commands).log.snapshot = r.log.snapshot ++ more) ∧
    (∀ (r : Readers) (command : Readers.Command),
      r.log.closed = true ∨ (∀ line, command ≠ .append line) →
      (r.perform command).1.log.lines = r.log.lines ∧
        (r.perform command).1.log.snapshot = r.log.snapshot) ∧
    (∀ (r : Readers) (line : String),
      (r.log.closed = true → r.perform (.append line) = (r, [], .error .closedLog)) ∧
      (r.log.closed = false →
        (r.perform (.append line)).1.log.lines = r.log.lines.push line)) ∧
    ∀ (s : Session) (w : System) (others : List Birth) (t u : Timeline Session Activity Result),
      Later machinery { state := s.afresh w others } t → Later machinery t u →
      ∀ id p, t.state.fleet.process? id = some p →
        (p.log.lines ≠ #[] →
          (p.log.snapshot.split '\n').toList.map (·.copy) = p.log.lines.toList) ∧
        '\r' ∉ p.log.snapshot.toList ∧
        ∃ q more, u.state.fleet.process? id = some q ∧
          q.log.snapshot = p.log.snapshot ++ more := by
  refine ⟨fun r commands => (r.extends_performAll commands).snapshot, fun r command h => ?_,
    fun r line => ⟨fun h => Readers.perform_append_of_closed h line,
      fun h => Readers.lines_perform_append h line⟩, fun s w others t u ht hu id p hp => ?_⟩
  · have hlines := Readers.lines_perform h
    exact ⟨hlines, by rw [OutputLog.snapshot, hlines, ← OutputLog.snapshot]⟩
  · have hnone : (s.afresh w others).fleet.Each Supervised.Clean := fun id p hp => by cases hp
    have hclean : p.Clean :=
      Supervised.enduring_clean.each (fun _ => Supervised.Clean.fresh) ht hnone id p hp
    obtain ⟨q, hq, hextends⟩ := Supervised.enduring_extends.later hu hp
    obtain ⟨more, hmore⟩ := hextends.snapshot
    exact ⟨OutputLog.split_snapshot hclean.recorded,
      OutputLog.return_not_mem_snapshot hclean.recorded, q, more, hq, hmore⟩

/-- The first line is empty, a `\r` and its `\n` come apart, and the last line is ended by the end
of the program. -/
theorem snapshot_tells_lines_of_cut_return :
    let program : Program :=
      { shell := { pid := 100, ppid := 1, pgid := 100 }
        events := [(3, .output [0x0A, 0x61, 0x0D]), (5, .output [0x0A, 0x62]), (9, .exit 0)] }
    let start : Timeline Session Activity Result :=
      { state := ({} : Session).afresh { programs := [.program program] } [] }
    let moves : List (Move Command) :=
      [.begin (.act (.start "h" { command := "wrangler dev" } false)), .tick, .tick]
    let closed : Readers := { log := { lines := #["", "a"], closed := true } }
    let t := play machinery start moves
    let u := play machinery t [.tick]
    (closed.log.closed = true ∧ closed.perform (.append "b") = (closed, [], .error .closedLog) ∧
      (closed.perform .close).1.log.snapshot = "\na") ∧
    ∃ p q more, t.state.fleet.process? 0 = some p ∧ p.log.lines = #["", "a"] ∧
      (p.log.snapshot.split '\n').toList.map (·.copy) = ["", "a"] ∧ '\r' ∉ p.log.snapshot.toList ∧
      u.state.fleet.process? 0 = some q ∧ q.log.lines = #["", "a", "b"] ∧
      q.log.snapshot = p.log.snapshot ++ more := by
  intro program start moves closed t u
  obtain ⟨-, hkept, hadded, htells⟩ := snapshot_tells_lines
  have hsnapshot := (hkept closed .close (.inl rfl)).2
  have hfirst : (t.state.fleet.process? 0).map (·.log.lines) = some #["", "a"] := by decide +kernel
  have hlast : (u.state.fleet.process? 0).map (·.log.lines) = some #["", "a", "b"] := by
    decide +kernel
  obtain ⟨p, hp, hlines⟩ := Option.map_eq_some_iff.mp hfirst
  obtain ⟨hsplit, hfree, q, more, hq, hmore⟩ :=
    htells {} { programs := [.program program] } [] t u (Later.refl.play moves) (Later.refl.play _)
      0 p hp
  rw [hq, Option.map_some] at hlast
  have hsplit := hsplit (by rw [hlines]; decide)
  rw [hlines] at hsplit
  exact ⟨⟨rfl, (hadded closed "b").1 rfl, hsnapshot⟩, p, q, more, hp, hlines, hsplit, hfree, hq,
    Option.some.inj hlast, hmore⟩

end Session

end Overseer
