import Overseer.Proofs.Lines.Splitting
import Overseer.Proofs.Number.Limits
import Overseer.Proofs.Supervision.Programs

/-!
# What is recorded of a program

The chronicle of a program is what can be seen of it from outside: the chunks that come, the end of
its shell and the end of its pipe. From these alone it follows when the log of its process closes
(`Chronicle.closing`). What has been read stands in the log and in the splitter
(`Supervised.Heard`); when all that goes on at a moment has gone on, that is all that has come
(`Settled`).
-/

namespace Overseer

open Lines Number Octets World

/-- What happens to a program: the chunks it writes to its open pipe, the ends of its shell and of
its pipe, whether reading the pipe fails, and the end of the log of its process. -/
structure Chronicle where
  begun : Option Instant := none
  chunks : List (Instant × List UInt8) := []
  failure : Option Instant := none
  shellEnd : Option Instant := none
  pipeEnd : Option Instant := none
  logEnd : Option Instant := none
  deriving DecidableEq, Repr

namespace Chronicle

/-- Of what is written at the moment of a failure no more comes through than one read takes, and
nothing if that is the moment of the start, when no read has been waiting. -/
def lastRead (ch : Chronicle) (f : Instant) : List UInt8 :=
  if ch.begun = some f then []
  else ((ch.chunks.filter (·.1 = f)).map (·.2)).flatten.take Supervised.readSize

def received (ch : Chronicle) : List (Instant × List UInt8) :=
  match ch.failure with
  | none => ch.chunks
  | some f => ch.chunks.filter (·.1 < f) ++ [(f, ch.lastRead f)]

def bytes (ch : Chronicle) : List UInt8 := (ch.received.map (·.2)).flatten

def bytesUntil (ch : Chronicle) (cut : Instant) : List UInt8 :=
  ((ch.received.filter (·.1 ≤ cut)).map (·.2)).flatten

/-- When the log is to close: when the shell has ended and the pipe has ended too, or when the limit
for reading on has run out. -/
def closing (ch : Chronicle) (limit : Seconds) : Option Instant :=
  ch.shellEnd.bind fun e =>
    match ch.pipeEnd with
    | some f => if f ≤ e then some e else Instant.earlier (some f) (limit.deadline e)
    | none => limit.deadline e

/-- A log is at some moment what the chronicle says: it has been closed when it was to be, until
then it holds the lines that have been ended so far, and then the lines of all that came in time. -/
structure Foretells (ch : Chronicle) (limit : Seconds) (now : Instant) (log : OutputLog) :
    Prop where
  logEnd : ch.logEnd = (ch.closing limit).filter (· ≤ now)
  closed : log.closed = ch.logEnd.isSome
  sofar : ch.logEnd = none → ∃ text, Handler.decodeSoFar .replace .utf8 ch.bytes = .ok text ∧
    log.lines.toList = endedLines text
  whole : ∀ cut, ch.logEnd = some cut →
    ∃ text, Handler.decode .replace .utf8 (ch.bytesUntil cut) = .ok text ∧
      log.lines.toList = splitLines text

/-- The chronicle with some chunks that have come, and a failure if reading has failed by now. -/
def hear (ch : Chronicle) (now : Instant) (news : List (List UInt8)) (broken : Bool) : Chronicle :=
  { ch with
    begun := ch.begun <|> some now
    chunks := ch.chunks ++ news.map (now, ·)
    failure := ch.failure <|> if broken then some now else none }

def mark (ch : Chronicle) (now : Instant) (p : Supervised) (c : Child) : Chronicle :=
  { ch with
    shellEnd := ch.shellEnd <|> if c.exitCode.isSome then some now else none
    pipeEnd := ch.pipeEnd <|> if c.isOpen then none else some now
    logEnd := ch.logEnd <|> if p.log.closed then some now else none }

def shellEnded (ch : Chronicle) (now : Instant) : Chronicle :=
  { ch with shellEnd := ch.shellEnd <|> some now }

/-- Nothing in a chronicle is still to come, and it tells whether reading the pipe has failed. -/
structure Dated (ch : Chronicle) (c : Child) (now : Instant) : Prop where
  begun : ∃ b ≤ now, ch.begun = some b
  past : ∀ entry ∈ ch.chunks, entry.1 ≤ now
  failed : ∀ f, ch.failure = some f → f ≤ now
  broken : c.isBroken = ch.failure.isSome
  shut : ∀ f, ch.pipeEnd = some f → c.isOpen = false ∧ f ≤ now

variable {ch : Chronicle} {now later cut : Instant} {limit : Seconds} {c d : Child}
  {news : List (List UInt8)}

theorem received_of_sound (h : ch.failure = none) : ch.received = ch.chunks := by
  unfold received
  rw [h]

theorem received_of_failure {f : Instant} (h : ch.failure = some f) :
    ch.received = ch.chunks.filter (·.1 < f) ++ [(f, ch.lastRead f)] := by
  unfold received
  rw [h]

theorem Dated.sound (h : ch.Dated c now) (hb : c.isBroken = false) : ch.failure = none := by
  rw [h.broken] at hb
  simpa using hb

theorem Dated.hear_nothing (h : ch.Dated c now) (later : Instant) :
    ch.hear later [] c.isBroken = ch := by
  obtain ⟨b, -, hb⟩ := h.begun
  have hbroken := h.broken
  obtain ⟨begun, chunks, failure, shellEnd, pipeEnd, logEnd⟩ := ch
  obtain rfl : begun = some b := hb
  cases failure with
  | some f => simp [hear]
  | none =>
    have hsound : c.isBroken = false := hbroken
    simp [hear, hsound]

theorem received_hear (h : ch.failure = none) (now : Instant) (news : List (List UInt8)) :
    (ch.hear now news false).received = ch.chunks ++ news.map (now, ·) :=
  received_of_sound (by simp [hear, h])

theorem Dated.received_failure (h : ch.Dated c now) (hsound : ch.failure = none)
    (hlt : now < later) (news : List (List UInt8)) :
    (ch.hear later news true).received =
      ch.chunks ++ [(later, news.flatten.take Supervised.readSize)] := by
  obtain ⟨b, hle, hb⟩ := h.begun
  have hfailure : (ch.hear later news true).failure = some later := by simp [hear, hsound]
  have hbegun : (ch.hear later news true).begun ≠ some later := by
    have hne : b ≠ later := Nat.ne_of_lt (Nat.lt_of_le_of_lt hle hlt)
    simpa [hear, hb] using hne
  have hearlier : ∀ entry ∈ ch.chunks, entry.1 < later := fun entry he =>
    Nat.lt_of_le_of_lt (h.past entry he) hlt
  have hbefore : (ch.hear later news true).chunks.filter (·.1 < later) = ch.chunks := by
    rw [hear, List.filter_append, List.filter_eq_self.mpr fun entry he =>
      decide_eq_true (hearlier entry he)]
    simp [List.filter_map, Function.comp_def]
  have hat : ((ch.hear later news true).chunks.filter (·.1 = later)).map (·.2) = news := by
    rw [hear, List.filter_append, List.filter_eq_nil_iff.mpr fun entry he => by
      simpa using Nat.ne_of_lt (hearlier entry he)]
    simp [List.filter_map, Function.comp_def]
  rw [received_of_failure hfailure, hbefore, lastRead, if_neg hbegun, hat]

theorem Dated.hear (h : ch.Dated c now) (hg : c.Goes news d) (hle : now ≤ later) :
    (ch.hear later news d.isBroken).Dated d later where
  begun := by
    obtain ⟨b, hb, hbegun⟩ := h.begun
    exact ⟨b, Nat.le_trans hb hle, by simp [Chronicle.hear, hbegun]⟩
  past entry he := by
    rcases List.mem_append.mp he with he | he
    · exact Nat.le_trans (h.past entry he) hle
    · obtain ⟨chunk, -, rfl⟩ := List.mem_map.mp he
      exact Nat.le_refl _
  failed f hf := by
    cases hfailure : ch.failure with
    | some g =>
      obtain rfl : g = f := by simpa [Chronicle.hear, hfailure] using hf
      exact Nat.le_trans (h.failed g hfailure) hle
    | none =>
      cases hb : d.isBroken with
      | false => simp [Chronicle.hear, hfailure, hb] at hf
      | true =>
        obtain rfl : later = f := by simpa [Chronicle.hear, hfailure, hb] using hf
        exact Nat.le_refl _
  broken := by
    cases hfailure : ch.failure with
    | some g =>
      have hbroken : c.isBroken = true := by rw [h.broken, hfailure]; rfl
      have hsame := (hg.shut (Child.isOpen_of_isBroken hbroken)).2.1
      rw [hsame, hbroken]
      simp [Chronicle.hear, hfailure]
    | none => cases hb : d.isBroken <;> simp [Chronicle.hear, hfailure]
  shut f hf := by
    obtain ⟨hshut, hpast⟩ := h.shut f hf
    exact ⟨(hg.shut hshut).1, Nat.le_trans hpast hle⟩

theorem Dated.stays (h : ch.Dated c now) (hc : c.Stays d) : ch.Dated d now where
  begun := h.begun
  past := h.past
  failed := h.failed
  broken := hc.broken.trans h.broken
  shut f hf := ⟨(hc.shut (h.shut f hf).1).1, (h.shut f hf).2⟩

theorem Dated.bytesUntil_hear (h : ch.Dated c now) (hg : c.Goes news d) (hcut : cut ≤ now)
    (hlater : news ≠ [] ∨ d.isBroken ≠ c.isBroken → now < later) :
    (ch.hear later news d.isBroken).bytesUntil cut = ch.bytesUntil cut := by
  by_cases hsame : news = [] ∧ d.isBroken = c.isBroken
  · obtain ⟨rfl, hb⟩ := hsame
    rw [hb, h.hear_nothing]
  · have hlt : now < later := hlater (by
      by_cases hn : news = []
      · exact .inr fun hb => hsame ⟨hn, hb⟩
      · exact .inl hn)
    -- what is new, or a failure, is later than the cut
    have hafter : ¬ later ≤ cut := Nat.not_le.mpr (Nat.lt_of_le_of_lt hcut hlt)
    have hsound : ch.failure = none := by
      refine h.sound (Bool.eq_false_iff.mpr fun hb => hsame ?_)
      obtain ⟨-, hbroken, hnews⟩ := hg.shut (Child.isOpen_of_isBroken hb)
      exact ⟨hnews, hbroken⟩
    unfold bytesUntil
    cases hb : d.isBroken with
    | false =>
      rw [received_hear hsound, received_of_sound hsound, List.filter_append]
      have hnone : (news.map (later, ·)).filter (·.1 ≤ cut) = [] := by
        refine List.filter_eq_nil_iff.mpr fun entry he => ?_
        obtain ⟨chunk, -, rfl⟩ := List.mem_map.mp he
        simpa using hafter
      rw [hnone, List.append_nil]
    | true =>
      rw [h.received_failure hsound hlt, received_of_sound hsound, List.filter_append]
      simp [hafter]

theorem Dated.bytesUntil_eq_bytes (h : ch.Dated c now) : ch.bytesUntil now = ch.bytes := by
  rw [bytesUntil, bytes, List.filter_eq_self.mpr fun entry he => decide_eq_true ?_]
  cases hfailure : ch.failure with
  | none =>
    rw [received_of_sound hfailure] at he
    exact h.past entry he
  | some f =>
    rw [received_of_failure hfailure] at he
    rcases List.mem_append.mp he with he | he
    · exact h.past entry (List.mem_filter.mp he).1
    · obtain rfl := List.mem_singleton.mp he
      exact h.failed f hfailure

theorem shellEnded_of_some {e : Instant} (h : ch.shellEnd = some e) (now : Instant) :
    ch.shellEnded now = ch := by
  obtain ⟨begun, chunks, failure, shellEnd, pipeEnd, logEnd⟩ := ch
  obtain rfl : shellEnd = some e := h
  rfl

theorem mark_shellEnded {c : Child} (h : c.exitCode.isSome = true) (p : Supervised) :
    (ch.shellEnded now).mark now p c = ch.mark now p c := by
  cases he : ch.shellEnd <;> simp [mark, shellEnded, h, he]

theorem isOpen_of_mark {p : Supervised} {c : Child} (h : (ch.mark now p c).pipeEnd = none) :
    c.isOpen = true := by
  cases ho : c.isOpen with
  | true => rfl
  | false => simp [mark, ho] at h

theorem shut_mark {p : Supervised} {c : Child} {f : Instant}
    (h : ∀ f, ch.pipeEnd = some f → c.isOpen = false ∧ f ≤ now)
    (hf : (ch.mark now p c).pipeEnd = some f) : c.isOpen = false ∧ f ≤ now := by
  cases hp : ch.pipeEnd with
  | some g =>
    obtain rfl : g = f := by simpa [mark, hp] using hf
    exact h g hp
  | none =>
    cases ho : c.isOpen with
    | true => simp [mark, hp, ho] at hf
    | false =>
      obtain rfl : now = f := by simpa [mark, hp, ho] using hf
      exact ⟨rfl, Nat.le_refl _⟩

theorem Dated.mark (h : ch.Dated c now) (p : Supervised) : (ch.mark now p c).Dated c now :=
  ⟨h.begun, h.past, h.failed, h.broken, fun _ => shut_mark h.shut⟩

theorem Dated.shellEnded (h : ch.Dated c now) : (ch.shellEnded now).Dated c now :=
  ⟨h.begun, h.past, h.failed, h.broken, h.shut⟩

/-- The end of the pipe does not matter any more when the log has been closed. -/
theorem closing_mark (h : ch.closing limit = some cut) (hcut : cut ≤ now) (p : Supervised)
    (c : Child) : (ch.mark now p c).closing limit = some cut := by
  obtain ⟨e, he, hc⟩ := Option.bind_eq_some_iff.mp h
  have hshell : (ch.mark now p c).shellEnd = some e := by simp [mark, he]
  rw [closing, hshell, Option.bind_some]
  cases hp : ch.pipeEnd with
  | some f =>
    have hpipe : (ch.mark now p c).pipeEnd = some f := by simp [mark, hp]
    rw [hp] at hc
    rw [hpipe]
    exact hc
  | none =>
    rw [hp] at hc
    dsimp only at hc
    cases ho : c.isOpen with
    | true =>
      have hpipe : (ch.mark now p c).pipeEnd = none := by simp [mark, hp, ho]
      rw [hpipe]
      exact hc
    | false =>
      have hpipe : (ch.mark now p c).pipeEnd = some now := by simp [mark, hp, ho]
      rw [hpipe, hc]
      have hle : e ≤ cut := Seconds.le_deadline hc
      dsimp only
      split
      next hn => rw [Nat.le_antisymm hle (Nat.le_trans hcut hn)]
      · exact congrArg some (Nat.min_eq_right hcut)

theorem closing_of_shut {e : Instant} {p : Supervised} {c : Child} (he : ch.shellEnd = some e)
    (hpast : e ≤ now) (hpipe : ∀ f, ch.pipeEnd = some f → f ≤ e ∧ e = now)
    (hdeadline : ∀ d, limit.deadline e = some d → now ≤ d) (hshut : c.isOpen = false) :
    (ch.mark now p c).closing limit = some now := by
  have hshell : (ch.mark now p c).shellEnd = some e := by simp [mark, he]
  rw [closing, hshell, Option.bind_some]
  cases hp : ch.pipeEnd with
  | some f =>
    obtain ⟨hle, rfl⟩ := hpipe f hp
    have hpipe : (ch.mark e p c).pipeEnd = some f := by simp [mark, hp]
    rw [hpipe]
    exact if_pos hle
  | none =>
    have hpipe : (ch.mark now p c).pipeEnd = some now := by simp [mark, hp, hshut]
    rw [hpipe]
    dsimp only
    split
    next hn => rw [Nat.le_antisymm hpast hn]
    · cases hd : limit.deadline e with
      | none => rfl
      | some d => exact congrArg some (Nat.min_eq_left (hdeadline d hd))

theorem closing_of_deadline {e d : Instant} {p : Supervised} {c : Child}
    (he : ch.shellEnd = some e) (hpipe : ch.pipeEnd = none) (hd : limit.deadline e = some d)
    (hopen : c.isOpen = true) : (ch.mark now p c).closing limit = some d := by
  have hshell : (ch.mark now p c).shellEnd = some e := by simp [mark, he]
  have hnone : (ch.mark now p c).pipeEnd = none := by simp [mark, hpipe, hopen]
  rw [closing, hshell, Option.bind_some, hnone]
  exact hd

end Chronicle

namespace Supervised

/-- All that has been read of a program stands in the open log of its process, but for what is
still in the splitter. -/
def Heard (p : Supervised) (bytes : List UInt8) : Prop :=
  p.log.closed = false ∧ ∃ text, Handler.decodeSoFar .replace .utf8 bytes = .ok text ∧
    p.splitter = Splitter.after .utf8 .replace bytes text ∧ p.log.lines.toList = endedLines text

variable {p : Supervised} {bytes : List UInt8}

theorem lenient_replace : Handler.Lenient .replace := .inr (.inl rfl)

theorem appendAll_of_open {log : OutputLog} (h : log.closed = false) (lines : Array String) :
    (log.appendAll lines).lines.toList = log.lines.toList ++ lines.toList ∧
      (log.appendAll lines).closed = false := by
  unfold OutputLog.appendAll
  rw [← Array.foldl_toList]
  generalize lines.toList = lines
  induction lines generalizing log with
  | nil => exact ⟨(List.append_nil _).symm, h⟩
  | cons line lines ih =>
    have happend : (log.append? line).getD log =
        { log.put (.line line) with lines := log.lines.push line } := by
      unfold OutputLog.append?
      rw [h]
      rfl
    rw [List.foldl_cons, happend]
    have hopen : { log.put (.line line) with lines := log.lines.push line }.closed = false := h
    obtain ⟨hl, hc⟩ := ih hopen
    exact ⟨by simpa using hl, hc⟩

theorem heard_readChunk (h : p.Heard bytes) (chunk : List UInt8) :
    ∃ (log : OutputLog) (splitter : Splitter Decoder),
      (p.readChunk chunk).1 = { p with log, splitter } ∧
      (p.readChunk chunk).1.Heard (bytes ++ chunk) := by
  obtain ⟨hopen, text, htext, hsplitter, hlines⟩ := h
  obtain ⟨whole, hwhole⟩ := lenient_replace.text .utf8 (Encoding.scan .utf8 [] (bytes ++ chunk)).1
  obtain ⟨sofar, lines, hsofar, hfeed, hended⟩ := Splitter.feed_after hwhole
  obtain rfl := Except.ok.inj (htext.symm.trans hsofar)
  have hread : (p.readChunk chunk).1 =
      { p with
        log := p.log.appendAll lines
        splitter := Splitter.after .utf8 .replace (bytes ++ chunk) whole } := by
    unfold readChunk
    rw [hsplitter, hfeed]
    rfl
  obtain ⟨hl, hc⟩ := appendAll_of_open hopen lines
  rw [hread]
  refine ⟨_, _, rfl, hc, whole, hwhole, rfl, ?_⟩
  rw [hended, ← hlines]
  exact hl

theorem heard_readChunks (h : p.Heard bytes) (hr : p.reader = .reading)
    (chunks : List (List UInt8)) :
    ∃ (log : OutputLog) (splitter : Splitter Decoder),
      (p.readChunks chunks).1 = { p with log, splitter } ∧
      (p.readChunks chunks).1.Heard (bytes ++ chunks.flatten) := by
  induction chunks generalizing p bytes with
  | nil => exact ⟨p.log, p.splitter, rfl, by simpa [readChunks] using h⟩
  | cons chunk chunks ih =>
    obtain ⟨log, splitter, he, hh⟩ := heard_readChunk h chunk
    have hfirst : (p.readChunk chunk).1.reader = .reading := by
      rw [he]
      exact hr
    obtain ⟨last, rest, hlast, hall⟩ := ih hh hfirst
    have hstep : (p.readChunks (chunk :: chunks)).1 =
        ((p.readChunk chunk).1.readChunks chunks).1 := by
      rw [readChunks, hr]
    rw [hstep, List.flatten_cons, ← List.append_assoc]
    refine ⟨last, rest, ?_, hall⟩
    rw [hlast, he]

/-- All that a pipe holds is read, unless reading has failed: then one read is all. -/
theorem flatten_reads (state : PipeState) (bytes : List UInt8) :
    (reads state bytes).flatten = if state.isFailed then bytes.take readSize else bytes := by
  induction hn : bytes.length using Nat.strongRecOn generalizing bytes with
  | ind n ih =>
    rw [reads]
    split
    next hempty =>
      obtain rfl := List.length_eq_zero_iff.mp hempty
      simp
    next hne =>
      cases hstate : state.isFailed with
      | true => simp
      | false =>
        have hless : (bytes.drop readSize).length < n := by
          rw [List.length_drop, hn, ← hn]
          exact Nat.sub_lt (Nat.pos_of_ne_zero hne) (by decide)
        have hrest := ih _ hless (bytes.drop readSize) rfl
        rw [hstate] at hrest
        simp only [Bool.false_eq_true, ↓reduceIte] at hrest
        simp [hrest]

theorem readChunks_reads_nil (p : Supervised) (state : PipeState) :
    p.readChunks (reads state []) = (p, []) := by
  rw [reads, if_pos List.length_nil, readChunks]

theorem heard_complete (h : p.Heard bytes) (code : Int) :
    ∃ (log : OutputLog) (splitter : Splitter Decoder) (text : List Char),
      (p.complete code).1 = { p with log, splitter, phase := .completed code } ∧
      log.closed = true ∧ Handler.decode .replace .utf8 bytes = .ok text ∧
      log.lines.toList = splitLines text := by
  obtain ⟨hopen, text, htext, hsplitter, hlines⟩ := h
  obtain ⟨whole, hwhole⟩ := lenient_replace.text .utf8 (Encoding.pieces .utf8 bytes)
  obtain ⟨sofar, lines, hsofar, hflush, hsplit⟩ := Splitter.flush_after hwhole
  obtain rfl := Except.ok.inj (htext.symm.trans hsofar)
  have hrest : p.recordRest.1 =
      { p with
        log := p.log.appendAll lines
        splitter := Splitter.after .utf8 .replace [] [] } := by
    unfold recordRest
    rw [hsplitter, hflush]
    rfl
  obtain ⟨hl, hc⟩ := appendAll_of_open hopen lines
  have hclose : (p.log.appendAll lines).close.1 =
      { (p.log.appendAll lines).put .ended with closed := true } := by
    unfold OutputLog.close
    rw [hc]
    rfl
  refine ⟨(p.log.appendAll lines).close.1, Splitter.after .utf8 .replace [] [], whole, ?_, ?_,
    hwhole, ?_⟩
  · unfold complete
    change { p.recordRest.1 with log := p.recordRest.1.log.close.1, phase := .completed code } = _
    rw [hrest]
  · rw [hclose]
  · rw [hclose, hsplit, ← hlines]
    exact hl

end Supervised

def World.Child.waiting (c : Child) : List UInt8 :=
  if c.isBroken then c.unread.flatten.take Supervised.readSize else c.unread.flatten

/-- What has been read of a program whose log is open: all that has come through, but for what can
still be read. When nothing is read any more the pipe is shut. -/
structure Reads (p : Supervised) (c : Child) (ch : Chronicle) : Prop where
  logEnd : ch.logEnd = none
  lines : (p.reader = .reading ∧ ch.pipeEnd = none ∧
      ∃ bytes, p.Heard bytes ∧ ch.bytes = bytes ++ c.waiting) ∨
    p.reader ≠ .reading ∧ c.isOpen = false ∧ p.Heard ch.bytes

structure Closed (p : Supervised) (c : Child) (ch : Chronicle) (now cut : Instant) : Prop where
  closed : p.log.closed = true
  phase : ∃ code, p.phase = .completed code
  reader : p.reader ≠ .reading
  code : c.exitCode.isSome = true
  logEnd : ch.logEnd = some cut
  past : cut ≤ now
  closing : ch.closing p.drainLimit = some cut
  lines : ∃ text, Handler.decode .replace .utf8 (ch.bytesUntil cut) = .ok text ∧
    p.log.lines.toList = splitLines text

/-- The shell of a process has ended at some moment, and its pipe may still be read. -/
structure Draining (p : Supervised) (c : Child) (ch : Chronicle) (now : Instant) (code : Int)
    (e : Instant) : Prop where
  phase : p.phase = .draining code (p.drainLimit.deadline e)
  code : c.exitCode.isSome = true
  shellEnd : ch.shellEnd = some e
  past : e ≤ now
  pipeEnd : ∀ f, ch.pipeEnd = some f → f ≤ e ∧ e = now
  deadline : ∀ d, p.drainLimit.deadline e = some d → now ≤ d
  reads : Reads p c ch

inductive Stands (p : Supervised) (c : Child) (ch : Chronicle) (now : Instant) : Prop where
  | running (hphase : p.phase = .running) (hshell : ch.shellEnd = none) (hreads : Reads p c ch)
  | draining {code : Int} {e : Instant} (hdraining : Draining p c ch now code e)
  | closed {cut : Instant} (hclosed : Closed p c ch now cut)

structure Underway (p : Supervised) (c : Child) (ch : Chronicle) (now : Instant) : Prop where
  stands : Stands p c ch now
  dated : ch.Dated c now

def UpToDate (p : Supervised) (c : Child) : Prop :=
  p.reader = .reading → c.isOpen = true ∧ c.unread = []

structure Settled (p : Supervised) (c : Child) (ch : Chronicle) (now : Instant) : Prop
    extends Underway p c ch now where
  upToDate : UpToDate p c
  running : p.phase = .running → c.exitCode = none
  draining : ∀ code deadline, p.phase = .draining code deadline →
    p.reader = .reading ∧ Instant.reached now deadline = false
  pipe : ch.pipeEnd = none → c.isOpen = true

section

variable {p q : Supervised} {c d : Child} {ch : Chronicle} {now later : Instant}
  {news : List (List UInt8)}

theorem Reads.pipeEnd_of_reading (h : Reads p c ch) (hr : p.reader = .reading) :
    ch.pipeEnd = none := by
  rcases h.lines with ⟨-, hnone, -⟩ | ⟨hn, -, -⟩
  · exact hnone
  · exact absurd hr hn

theorem Reads.shut_of_not_reading (h : Reads p c ch) (hr : p.reader ≠ .reading) :
    c.isOpen = false := by
  rcases h.lines with ⟨hn, -, -⟩ | ⟨-, hshut, -⟩
  · exact absurd hn hr
  · exact hshut

theorem Supervised.Heard.same {bytes : List UInt8} (h : p.Heard bytes) (hs : p.Same q) :
    q.Heard bytes := by
  obtain ⟨log, rfl, hl, hc⟩ := hs
  obtain ⟨hopen, text, htext, hsplitter, hlines⟩ := h
  exact ⟨hc.trans hopen, text, htext, hsplitter, by rw [hl, hlines]⟩

theorem waiting_of_unread (h : c.unread = []) : c.waiting = [] := by
  unfold Child.waiting
  rw [h]
  split <;> rfl

theorem Reads.heard (h : Reads p c ch) (hup : UpToDate p c) : p.Heard ch.bytes := by
  rcases h.lines with ⟨hr, -, bytes, hheard, hbytes⟩ | ⟨-, -, hheard⟩
  · rw [hbytes, waiting_of_unread (hup hr).2, List.append_nil]
    exact hheard
  · exact hheard

/-- What comes into the pipe comes into the chronicle, as far as it can be read. -/
theorem Reads.hear (h : Reads p c ch) (hdated : ch.Dated c now) (hup : UpToDate p c)
    (hg : c.Goes news d) (hlater : news ≠ [] ∨ d.isBroken ≠ c.isBroken → now < later) :
    Reads p d (ch.hear later news d.isBroken) where
  logEnd := h.logEnd
  lines := by
    by_cases hr : p.reader = .reading
    · obtain ⟨hopen, hempty⟩ := hup hr
      have hc : c.isBroken = false := Bool.eq_false_iff.mpr fun hb => by
        rw [Child.isOpen_of_isBroken hb] at hopen
        cases hopen
      have hsound := hdated.sound hc
      have hunread : d.unread = news := by rw [hg.unread, hempty, List.nil_append]
      refine .inl ⟨hr, h.pipeEnd_of_reading hr, ch.bytes, h.heard hup, ?_⟩
      unfold Chronicle.bytes Child.waiting
      rw [hunread, Chronicle.received_of_sound hsound]
      cases hb : d.isBroken with
      | false => simp [Chronicle.received_hear hsound, Function.comp_def]
      | true =>
        have hlt : now < later := hlater (.inr (by simp [hb, hc]))
        simp [hdated.received_failure hsound hlt]
    · have hshut := h.shut_of_not_reading hr
      obtain ⟨hd, hbroken, rfl⟩ := hg.shut hshut
      rw [hbroken, hdated.hear_nothing]
      exact .inr ⟨hr, hd, h.heard hup⟩

theorem Reads.same (h : Reads p c ch) (hs : p.Same q) (hc : c.Stays d) : Reads q d ch where
  logEnd := h.logEnd
  lines := by
    have hreader : q.reader = p.reader := by
      obtain ⟨log, rfl, -, -⟩ := hs
      rfl
    have hwaiting : d.waiting = c.waiting := by
      unfold Child.waiting
      rw [hc.broken, hc.unread, List.append_nil]
    rw [hreader]
    rcases h.lines with ⟨hr, hpipe, bytes, hheard, hbytes⟩ | ⟨hr, hshut, hheard⟩
    · exact .inl ⟨hr, hpipe, bytes, hheard.same hs, hbytes.trans (by rw [hwaiting])⟩
    · exact .inr ⟨hr, (hc.shut hshut).1, hheard.same hs⟩

theorem readOutput_of_reading {s : Scene} {pipe : Pipe} (hr : p.reader = .reading)
    (hp : s.system.pipe? p.child = some pipe) :
    (p.readOutput s).2 = { (p.readChunks (Supervised.reads pipe.state pipe.unread.flatten)).1 with
      reader :=
        (p.readChunks (Supervised.reads pipe.state pipe.unread.flatten)).1.readerAfter pipe } ∧
    (p.readOutput s).1.system =
      s.system.emptyPipe
        (p.readChunks (Supervised.reads pipe.state pipe.unread.flatten)).1.child := by
  unfold Supervised.readOutput
  rw [hr, hp]
  exact ⟨rfl, rfl⟩

theorem readOutput_of_no_pipe {s : Scene} (hr : p.reader = .reading)
    (hp : s.system.pipe? p.child = none) :
    p.readOutput s = (s, { p with reader := .finished }) := by
  unfold Supervised.readOutput
  rw [hr, hp]

theorem readOutput_of_not_reading (hr : p.reader ≠ .reading) (s : Scene) :
    p.readOutput s = (s, p) := by
  unfold Supervised.readOutput
  split
  · exact absurd ‹_› hr
  · rfl

theorem readerAfter_eq_reading_iff {pipe : Pipe} (hr : p.reader = .reading) :
    p.readerAfter pipe = .reading ↔ (pipe.state == .open) = true := by
  unfold Supervised.readerAfter
  rw [hr]
  cases pipe.state <;> simp

theorem Reads.readPipe (h : Reads p c ch) {pipe : Pipe} (hr : p.reader = .reading)
    (hp : c.pipe = some pipe) {last : Supervised}
    (hlast : (p.readChunks (Supervised.reads pipe.state pipe.unread.flatten)).1 = last) :
    ∃ (log : OutputLog) (splitter : Splitter Decoder),
      { last with reader := last.readerAfter pipe } =
        { p with log, splitter, reader := last.readerAfter pipe } ∧
      Reads { last with reader := last.readerAfter pipe }
        { c with pipe := some { pipe with unread := [] } } ch ∧
      UpToDate { last with reader := last.readerAfter pipe }
        { c with pipe := some { pipe with unread := [] } } := by
  rcases h.lines with ⟨-, hpipe, bytes, hheard, hbytes⟩ | ⟨hn, -, -⟩
  · obtain ⟨log, splitter, he, hall⟩ := Supervised.heard_readChunks hheard hr
      (Supervised.reads pipe.state pipe.unread.flatten)
    have hwaiting : (Supervised.reads pipe.state pipe.unread.flatten).flatten = c.waiting := by
      rw [Supervised.flatten_reads]
      simp [Child.waiting, Child.isBroken, Child.unread, hp]
    rw [hwaiting, ← hbytes, hlast] at hall
    rw [hlast] at he
    obtain ⟨hclosed, hall⟩ := hall
    have hreader : last.reader = .reading := by rw [he, hr]
    have hiff : last.readerAfter pipe = .reading ↔ (pipe.state == .open) = true :=
      readerAfter_eq_reading_iff hreader
    refine ⟨log, splitter, by rw [he], ⟨h.logEnd, ?_⟩, fun ha => ⟨hiff.mp ha, rfl⟩⟩
    by_cases ho : (pipe.state == .open) = true
    · refine .inl ⟨hiff.mpr ho, hpipe, ch.bytes, ⟨hclosed, hall⟩, ?_⟩
      rw [waiting_of_unread rfl, List.append_nil]
    · exact .inr ⟨fun ha => ho (hiff.mp ha), by simpa [Child.isOpen] using ho, hclosed, hall⟩
  · exact absurd hr hn

/-- The output that is there is read: the process is the same but for its log, its splitter and its
reader. -/
theorem Reads.readOutput (h : Reads p c ch) (hs : Fleet.Stepped Supervised.readOutput now p c q d) :
    Reads q d ch ∧ UpToDate q d ∧ d.isOpen = c.isOpen ∧ d.isBroken = c.isBroken ∧
      d.exitCode = c.exitCode ∧ ∃ (log : OutputLog) (splitter : Splitter Decoder) (reader : Reader),
        q = { p with log, splitter, reader } := by
  obtain ⟨s, -, hc, rfl, hd⟩ := hs
  have hpipe : s.system.pipe? p.child = c.pipe := by rw [System.pipe?, hc, Option.bind_some]
  by_cases hr : p.reader = .reading
  · cases hp : c.pipe with
    | none =>
      rw [hp] at hpipe
      rw [readOutput_of_no_pipe hr hpipe] at hd ⊢
      obtain rfl := Option.some.inj (hc.symm.trans hd)
      have hshut : c.isOpen = false := by simp [Child.isOpen, hp]
      refine ⟨⟨h.logEnd, .inr ⟨by simp, hshut, ?_⟩⟩, by simp [UpToDate], rfl, rfl, rfl, p.log,
        p.splitter, _, rfl⟩
      rcases h.lines with ⟨-, -, bytes, hheard, hbytes⟩ | ⟨hn, -, -⟩
      · have hnone : c.unread = [] := by simp [Child.unread, hp]
        rw [hbytes, waiting_of_unread hnone, List.append_nil]
        exact hheard
      · exact absurd hr hn
    | some pipe =>
      rw [hp] at hpipe
      obtain ⟨hq, hsystem⟩ := readOutput_of_reading hr hpipe
      obtain ⟨log, splitter, he, hreads, hup⟩ := h.readPipe hr hp rfl
      have hsame := congrArg Supervised.child he
      dsimp only at hsame
      rw [hsystem, hsame, System.emptyPipe, System.onPipe, Array.getElem?_modify, if_pos rfl,
        hc] at hd
      have hchild : { c with pipe := some { pipe with unread := [] } } = d := by
        have hd := Option.some.inj hd
        rw [← hd]
        simp [hp]
      subst hchild
      rw [hq]
      exact ⟨hreads, hup, by simp [Child.isOpen, hp], by simp [Child.isBroken, hp], rfl, log,
        splitter, _, he⟩
  · rw [readOutput_of_not_reading hr] at hd ⊢
    obtain rfl := Option.some.inj (hc.symm.trans hd)
    exact ⟨h, fun h => absurd h hr, rfl, rfl, rfl, p.log, p.splitter, p.reader, rfl⟩

theorem Stands.of_settled (h : Settled p c ch now) (hg : c.Goes news d)
    (hlater : news ≠ [] ∨ d.isBroken ≠ c.isBroken → now < later) (hle : now ≤ later)
    (hdue : ∀ code deadline, p.phase = .draining code (some deadline) → later ≤ deadline) :
    Stands p d (ch.hear later news d.isBroken) later := by
  rcases h.stands with ⟨hphase, hshell, hreads⟩ | ⟨hdraining⟩ | ⟨hclosed⟩
  · exact .running hphase hshell (hreads.hear h.dated h.upToDate hg hlater)
  · have hphase := hdraining.phase
    refine .draining ⟨hphase, hg.ended hdraining.code, hdraining.shellEnd,
      Nat.le_trans hdraining.past hle, ?_, ?_, hdraining.reads.hear h.dated h.upToDate hg hlater⟩
    · intro f hf
      obtain ⟨hr, -⟩ := h.draining _ _ hphase
      have hshut := (h.dated.shut f hf).1
      rw [(h.upToDate hr).1] at hshut
      cases hshut
    · intro deadline hd
      rw [hd] at hphase
      exact hdue _ deadline hphase
  · refine .closed ⟨hclosed.closed, hclosed.phase, hclosed.reader, hg.ended hclosed.code,
      hclosed.logEnd, Nat.le_trans hclosed.past hle, hclosed.closing, ?_⟩
    rw [h.dated.bytesUntil_hear hg hclosed.past hlater]
    exact hclosed.lines

theorem Settled.hear (h : Settled p c ch now) (hg : c.Goes news d)
    (hlater : news ≠ [] ∨ d.isBroken ≠ c.isBroken → now < later) (hle : now ≤ later)
    (hdue : ∀ code deadline, p.phase = .draining code (some deadline) → later ≤ deadline) :
    Underway p d (ch.hear later news d.isBroken) later :=
  ⟨Stands.of_settled h hg hlater hle hdue, h.dated.hear hg hle⟩

theorem Supervised.Begun.underway (h : p.Begun c) (now : Instant) :
    Underway p c (Chronicle.hear {} now c.unread c.isBroken) now where
  stands := by
    have hheard : p.Heard [] := by
      refine ⟨h.closed, [], rfl, ?_, ?_⟩
      · rw [h.splitter]
        rfl
      · rw [h.lines]
        rfl
    refine .running h.phase rfl ⟨rfl, ?_⟩
    cases hb : c.isBroken with
    | false =>
      refine .inl ⟨h.reader.mpr hb, rfl, [], hheard, ?_⟩
      simp [Chronicle.bytes, Chronicle.received, Chronicle.hear, Child.waiting, hb,
        Function.comp_def]
    | true =>
      have hr : p.reader ≠ .reading := fun hr => by
        rw [h.reader.mp hr] at hb
        cases hb
      refine .inr ⟨hr, Child.isOpen_of_isBroken hb, ?_⟩
      have hnone : (Chronicle.hear {} now c.unread true).bytes = [] := by
        simp [Chronicle.bytes, Chronicle.received, Chronicle.lastRead, Chronicle.hear,
          List.filter_map, Function.comp_def]
      rw [hnone]
      exact hheard
  dated := by
    refine ⟨⟨now, Nat.le_refl _, rfl⟩, fun entry he => ?_, fun f hf => ?_, ?_, fun f hf => ?_⟩
    · obtain ⟨chunk, -, rfl⟩ := List.mem_map.mp he
      exact Nat.le_refl _
    · cases hb : c.isBroken with
      | false => simp [Chronicle.hear, hb] at hf
      | true =>
        obtain rfl : now = f := by simpa [Chronicle.hear, hb] using hf
        exact Nat.le_refl _
    · cases hb : c.isBroken <;> simp [Chronicle.hear]
    · cases hf

theorem Underway.same (h : Underway p c ch now) (hs : p.Same q) (hg : c.Stays d) :
    Underway q d ch now where
  stands := by
    rcases h.stands with ⟨hphase, hshell, hreads⟩ | ⟨hdraining⟩ | ⟨hclosed⟩
    · have hreads := hreads.same hs hg
      obtain ⟨log, rfl, hl, hc⟩ := hs
      exact .running hphase hshell hreads
    · have hreads := hdraining.reads.same hs hg
      obtain ⟨log, rfl, hl, hc⟩ := hs
      exact .draining ⟨hdraining.phase, hg.ended hdraining.code, hdraining.shellEnd, hdraining.past,
        hdraining.pipeEnd, hdraining.deadline, hreads⟩
    · obtain ⟨log, rfl, hl, hc⟩ := hs
      exact .closed ⟨hc.trans hclosed.closed, hclosed.phase, hclosed.reader, hg.ended hclosed.code,
        hclosed.logEnd, hclosed.past, hclosed.closing, by rw [hl]; exact hclosed.lines⟩
  dated := h.dated.stays hg

theorem Underway.readOutput (h : Underway p c ch now)
    (hs : Fleet.Stepped Supervised.readOutput now p c q d) :
    Underway q d ch now ∧ UpToDate q d := by
  have hopen : Reads p c ch → Underway q d ch now ∧ UpToDate q d := by
    intro hreads
    obtain ⟨hq, hup, ho, hb, hx, log, splitter, reader, rfl⟩ := hreads.readOutput hs
    have hstands : Stands { p with log, splitter, reader } d ch now := by
      rcases h.stands with ⟨hphase, hshell, -⟩ | ⟨hdraining⟩ | ⟨hclosed⟩
      · exact .running hphase hshell hq
      · exact .draining ⟨hdraining.phase, hx ▸ hdraining.code, hdraining.shellEnd, hdraining.past,
          hdraining.pipeEnd, hdraining.deadline, hq⟩
      · have hend := hclosed.logEnd
        rw [hreads.logEnd] at hend
        cases hend
    have hdated := h.dated
    exact ⟨⟨hstands, hdated.begun, hdated.past, hdated.failed, hb.trans hdated.broken,
      fun f hf => ⟨ho.trans (hdated.shut f hf).1, (hdated.shut f hf).2⟩⟩, hup⟩
  rcases h.stands with ⟨-, -, hreads⟩ | ⟨hdraining⟩ | ⟨hclosed⟩
  · exact hopen hreads
  · exact hopen hdraining.reads
  · obtain ⟨s, -, hc, rfl, hd⟩ := hs
    rw [readOutput_of_not_reading hclosed.reader] at hd ⊢
    obtain rfl := Option.some.inj (hc.symm.trans hd)
    exact ⟨h, fun hr => absurd hr hclosed.reader⟩

theorem noticeExit_of_not_running (hphase : p.phase ≠ .running) (s : Scene) :
    (p.noticeExit s).2 = p := by
  unfold Supervised.noticeExit
  split
  · exact absurd ‹_› hphase
  · rfl

theorem giveUpReading_of_not_reading (hr : p.reader ≠ .reading) (s : Scene) :
    (p.giveUpReading s).2 = p := by
  unfold Supervised.giveUpReading
  split
  · exact absurd ‹_› hr
  · rfl

theorem giveUpReading_of_not_reached {code : Int} {deadline : Option Instant} {s : Scene}
    (hphase : p.phase = .draining code deadline) (h : Instant.reached s.now deadline = false) :
    (p.giveUpReading s).2 = p := by
  unfold Supervised.giveUpReading
  rw [hphase]
  cases p.reader with
  | reading =>
    dsimp only
    rw [if_neg (by simp [h])]
  | finished => rfl
  | failed text => rfl

theorem reportEnd_of_reading (hr : p.reader = .reading) (s : Scene) : (p.reportEnd s).2 = p := by
  unfold Supervised.reportEnd
  rw [hr]
  split
  · cases ‹Reader.reading = _›
  · cases ‹Reader.reading = _›
  · rfl

theorem reportEnd_of_draining {code : Int} {deadline : Option Instant}
    (hphase : p.phase = .draining code deadline) (hr : p.reader ≠ .reading) (s : Scene) :
    (p.reportEnd s).2 = (p.complete code).1 := by
  unfold Supervised.reportEnd
  rw [hphase]
  cases hp : p.reader with
  | reading => exact absurd hp hr
  | finished => rfl
  | failed text => rfl

theorem reportEnd_of_completed {code : Int} (hphase : p.phase = .completed code) (s : Scene) :
    (p.reportEnd s).2 = p := by
  unfold Supervised.reportEnd
  rw [hphase]

/-- The end of the shell is noticed, and reading on is limited from then on. -/
theorem Underway.noticeExit (h : Underway p c ch now) (hup : UpToDate p c)
    (hx : c.exitCode.isSome = true) (hs : Fleet.Stepped Supervised.noticeExit now p c q c) :
    Underway q c (ch.shellEnded now) now ∧ UpToDate q c ∧ q.phase ≠ .running := by
  obtain ⟨s, rfl, hc, rfl, -⟩ := hs
  obtain ⟨code, hcode⟩ := Option.isSome_iff_exists.mp hx
  have hexit : s.system.exitCode? p.child = some code := by
    rw [System.exitCode?, hc, Option.bind_some, hcode]
  rcases h.stands with ⟨hphase, hshell, hreads⟩ | ⟨hdraining⟩ | ⟨hclosed⟩
  · have hq : (p.noticeExit s).2 =
        { p with phase := .draining code (p.drainLimit.deadline s.now) } := by
      unfold Supervised.noticeExit
      rw [hphase, hexit]
    have hend : (ch.shellEnded s.now).shellEnd = some s.now := by
      simp [Chronicle.shellEnded, hshell]
    rw [hq]
    refine ⟨⟨.draining ⟨rfl, hx, hend, Nat.le_refl _, ?_, ?_, ?_⟩, h.dated.shellEnded⟩, hup,
      by simp⟩
    · exact fun f hf => ⟨(h.dated.shut f hf).2, rfl⟩
    · exact fun d hd => Seconds.le_deadline hd
    · exact ⟨hreads.logEnd, hreads.lines⟩
  · have hn : p.phase ≠ .running := by simp [hdraining.phase]
    rw [noticeExit_of_not_running hn, Chronicle.shellEnded_of_some hdraining.shellEnd]
    exact ⟨h, hup, hn⟩
  · obtain ⟨done, hphase⟩ := hclosed.phase
    obtain ⟨e, he, -⟩ := Option.bind_eq_some_iff.mp hclosed.closing
    have hn : p.phase ≠ .running := by simp [hphase]
    rw [noticeExit_of_not_running hn, Chronicle.shellEnded_of_some he]
    exact ⟨h, hup, hn⟩

theorem Settled.of_complete (hdated : ch.Dated c now) (hheard : p.Heard ch.bytes)
    (hr : p.reader ≠ .reading) (hx : c.exitCode.isSome = true) (hend : ch.logEnd = none)
    (code : Int)
    (hclosing : ∀ q : Supervised, (ch.mark now q c).closing p.drainLimit = some now) :
    Settled (p.complete code).1 c (ch.mark now (p.complete code).1 c) now := by
  obtain ⟨log, splitter, text, hq, hclosed, htext, hlines⟩ := Supervised.heard_complete hheard code
  rw [hq]
  have hlogEnd : (ch.mark now { p with log, splitter, phase := .completed code } c).logEnd =
      some now := by simp [Chronicle.mark, hend, hclosed]
  have hbytes : (ch.mark now { p with log, splitter, phase := .completed code } c).bytesUntil now =
      ch.bytes := hdated.bytesUntil_eq_bytes
  have hstands : Stands { p with log, splitter, phase := .completed code } c
      (ch.mark now { p with log, splitter, phase := .completed code } c) now :=
    .closed ⟨hclosed, ⟨code, rfl⟩, hr, hx, hlogEnd, Nat.le_refl _, hclosing _, text,
      by rw [hbytes]; exact htext, hlines⟩
  exact ⟨⟨hstands, hdated.mark _⟩, fun ha => absurd ha hr, by simp, by simp,
    Chronicle.isOpen_of_mark⟩

theorem Reads.mark (h : Reads p c ch) (hup : UpToDate p c) : Reads p c (ch.mark now p c) where
  logEnd := by simp [Chronicle.mark, h.logEnd, (h.heard hup).1]
  lines := by
    rcases h.lines with ⟨hr, hpipe, hlines⟩ | hlines
    · exact .inl ⟨hr, by simp [Chronicle.mark, hpipe, (hup hr).1], hlines⟩
    · exact .inr hlines

theorem Underway.settled_of_running (h : Underway p c ch now) (hup : UpToDate p c)
    (hx : c.exitCode = none) : Settled p c (ch.mark now p c) now := by
  rcases h.stands with ⟨hphase, hshell, hreads⟩ | ⟨hdraining⟩ | ⟨hclosed⟩
  · have hend : (ch.mark now p c).shellEnd = none := by simp [Chronicle.mark, hshell, hx]
    refine ⟨⟨.running hphase hend (hreads.mark hup), h.dated.mark p⟩, hup, fun _ => hx,
      fun code deadline hd => ?_, Chronicle.isOpen_of_mark⟩
    rw [hphase] at hd
    cases hd
  · have hexit := hdraining.code
    rw [hx] at hexit
    cases hexit
  · have hexit := hclosed.code
    rw [hx] at hexit
    cases hexit

theorem Closed.mark {cut : Instant} (h : Closed p c ch now cut) :
    Closed p c (ch.mark now p c) now cut where
  closed := h.closed
  phase := h.phase
  reader := h.reader
  code := h.code
  logEnd := by simp [Chronicle.mark, h.logEnd]
  past := h.past
  closing := Chronicle.closing_mark h.closing h.past p c
  lines := h.lines

/-- As long as the pipe is open and the limit has not run out, reading goes on. -/
theorem Draining.wait {code : Int} {e : Instant} (hd : Draining p c ch now code e)
    (h : Underway p c ch now) (hup : UpToDate p c) (hr : p.reader = .reading)
    (hreached : Instant.reached now (p.drainLimit.deadline e) = false) :
    Settled p c (ch.mark now p c) now := by
  have hshell : (ch.mark now p c).shellEnd = some e := by simp [Chronicle.mark, hd.shellEnd]
  have hpipe : (ch.mark now p c).pipeEnd = none := by
    simp [Chronicle.mark, hd.reads.pipeEnd_of_reading hr, (hup hr).1]
  have hdraining : Draining p c (ch.mark now p c) now code e := by
    refine ⟨hd.phase, hd.code, hshell, hd.past, fun f hf => ?_, hd.deadline, hd.reads.mark hup⟩
    rw [hpipe] at hf
    cases hf
  refine ⟨⟨.draining hdraining, h.dated.mark p⟩, hup, fun hphase => ?_,
    fun other deadline hphase => ?_, Chronicle.isOpen_of_mark⟩
  · rw [hd.phase] at hphase
    cases hphase
  · obtain ⟨rfl, rfl⟩ := Phase.draining.inj (hd.phase.symm.trans hphase)
    exact ⟨hr, hreached⟩

/-- When the limit has run out while the pipe is open, the log closes. -/
theorem Draining.giveUp {code : Int} {e : Instant} (hd : Draining p c ch now code e)
    (h : Underway p c ch now) (hup : UpToDate p c) (hr : p.reader = .reading)
    (hreached : Instant.reached now (p.drainLimit.deadline e) = true) :
    let last := ({ p with reader := .finished }.complete code).1
    Settled last c (ch.mark now last c) now := by
  obtain ⟨d, hdeadline, hle⟩ := Instant.reached_eq_true_iff.mp hreached
  obtain rfl : now = d := Nat.le_antisymm (hd.deadline d hdeadline) hle
  refine Settled.of_complete (p := { p with reader := .finished }) h.dated
    (hd.reads.heard hup) (by simp) hd.code hd.reads.logEnd code fun q => ?_
  exact Chronicle.closing_of_deadline hd.shellEnd (hd.reads.pipeEnd_of_reading hr) hdeadline
    (hup hr).1

/-- When reading has ended, or its limit has run out, the end is reported. -/
theorem Underway.reportEnd {last : Supervised} (h : Underway p c ch now) (hup : UpToDate p c)
    (hphase : p.phase ≠ .running)
    (hgive : Fleet.Stepped Supervised.giveUpReading now p c last c)
    (hreport : Fleet.Stepped Supervised.reportEnd now last c q c) :
    Settled q c (ch.mark now q c) now := by
  obtain ⟨s, rfl, -, rfl, -⟩ := hgive
  obtain ⟨s', -, -, rfl, -⟩ := hreport
  rcases h.stands with ⟨hrunning, -, -⟩ | @⟨code, e, hdraining⟩ | ⟨hclosed⟩
  · exact absurd hrunning hphase
  · by_cases hr : p.reader = .reading
    · cases hreached : Instant.reached s.now (p.drainLimit.deadline e) with
      | true =>
        have hq : (p.giveUpReading s).2 = { p with reader := .finished } := by
          unfold Supervised.giveUpReading
          rw [hdraining.phase, hr]
          dsimp only
          rw [if_pos hreached]
        rw [hq,
          reportEnd_of_draining (p := { p with reader := .finished }) hdraining.phase (by simp)]
        exact hdraining.giveUp h hup hr hreached
      | false =>
        rw [giveUpReading_of_not_reached hdraining.phase hreached, reportEnd_of_reading hr]
        exact hdraining.wait h hup hr hreached
    · rw [giveUpReading_of_not_reading hr, reportEnd_of_draining hdraining.phase hr]
      refine Settled.of_complete h.dated (hdraining.reads.heard hup) hr hdraining.code
        hdraining.reads.logEnd code fun q => ?_
      exact Chronicle.closing_of_shut hdraining.shellEnd hdraining.past hdraining.pipeEnd
        hdraining.deadline (hdraining.reads.shut_of_not_reading hr)
  · obtain ⟨code, hcompleted⟩ := hclosed.phase
    rw [giveUpReading_of_not_reading hclosed.reader, reportEnd_of_completed hcompleted]
    refine ⟨⟨.closed hclosed.mark, h.dated.mark p⟩, hup,
      fun hn => absurd hn hphase, fun other deadline hd => ?_, Chronicle.isOpen_of_mark⟩
    rw [hcompleted] at hd
    cases hd

theorem Underway.watched {noticed last : Supervised} (h : Underway p c ch now) (hup : UpToDate p c)
    (hx : c.exitCode.isSome = true)
    (hnotice : Fleet.Stepped Supervised.noticeExit now p c noticed c)
    (hgive : Fleet.Stepped Supervised.giveUpReading now noticed c last c)
    (hreport : Fleet.Stepped Supervised.reportEnd now last c q c) :
    Settled q c (ch.mark now q c) now := by
  obtain ⟨hunder, hupdate, hphase⟩ := h.noticeExit hup hx hnotice
  have hsettled := hunder.reportEnd hupdate hphase hgive hreport
  rwa [Chronicle.mark_shellEnded hx] at hsettled

theorem Settled.same (h : Settled p c ch now) (hs : p.Same q) : Settled q c ch now := by
  have hunder := h.toUnderway.same hs (.refl c)
  obtain ⟨log, rfl, -, -⟩ := hs
  exact ⟨hunder, h.upToDate, h.running, h.draining, h.pipe⟩

theorem Settled.readOutput (h : Settled p c ch now)
    (hs : Fleet.Stepped Supervised.readOutput now p c q d) : q = p ∧ d = c := by
  obtain ⟨s, -, hc, rfl, hd⟩ := hs
  by_cases hr : p.reader = .reading
  · obtain ⟨ho, hunread⟩ := h.upToDate hr
    cases hp : c.pipe with
    | none => simp [Child.isOpen, hp] at ho
    | some pipe =>
      have hempty : pipe.unread = [] := by simpa [Child.unread, hp] using hunread
      have hstate : (pipe.state == .open) = true := by simpa [Child.isOpen, hp] using ho
      have hpipe : s.system.pipe? p.child = some pipe := by
        rw [System.pipe?, hc, Option.bind_some, hp]
      obtain ⟨hq, hsystem⟩ := readOutput_of_reading hr hpipe
      have hreader := (readerAfter_eq_reading_iff hr).mpr hstate
      have hnone : p.readChunks (Supervised.reads pipe.state pipe.unread.flatten) = (p, []) := by
        rw [hempty, List.flatten_nil, Supervised.readChunks_reads_nil]
      rw [hnone] at hq hsystem
      rw [hsystem, System.emptyPipe, System.onPipe, Array.getElem?_modify, if_pos rfl, hc] at hd
      refine ⟨?_, ?_⟩
      · rw [hq, hreader, ← hr]
      · rw [← Option.some.inj hd]
        obtain ⟨unread, state⟩ := pipe
        obtain rfl : unread = [] := hempty
        simp only [hp, Option.map_some]
        rw [← hp]
  · rw [readOutput_of_not_reading hr] at hd ⊢
    exact ⟨rfl, Option.some.inj (hd.symm.trans hc)⟩

theorem Settled.watched {noticed last : Supervised} (h : Settled p c ch now)
    (hx : c.exitCode.isSome = true)
    (hnotice : Fleet.Stepped Supervised.noticeExit now p c noticed c)
    (hgive : Fleet.Stepped Supervised.giveUpReading now noticed c last c)
    (hreport : Fleet.Stepped Supervised.reportEnd now last c q c) : q = p := by
  obtain ⟨s, -, -, rfl, -⟩ := hnotice
  obtain ⟨s', hnow, -, rfl, -⟩ := hgive
  obtain ⟨s'', -, -, rfl, -⟩ := hreport
  have hrunning : p.phase ≠ .running := fun hphase => by
    rw [h.running hphase] at hx
    cases hx
  rw [noticeExit_of_not_running hrunning]
  rcases h.stands with ⟨hphase, -, -⟩ | ⟨hdraining⟩ | ⟨hclosed⟩
  · exact absurd hphase hrunning
  · have hphase := hdraining.phase
    obtain ⟨hr, hreached⟩ := h.draining _ _ hphase
    rw [← hnow] at hreached
    rw [giveUpReading_of_not_reached hphase hreached, reportEnd_of_reading hr]
  · obtain ⟨code, hphase⟩ := hclosed.phase
    rw [giveUpReading_of_not_reading hclosed.reader, reportEnd_of_completed hphase]

/-- The log of a process comes to what the chronicle of its program says. -/
theorem Settled.foretells (h : Settled p c ch now) : ch.Foretells p.drainLimit now p.log := by
  have hopen : Reads p c ch → (ch.closing p.drainLimit).filter (· ≤ now) = none →
      ch.Foretells p.drainLimit now p.log := by
    intro hreads hclosing
    obtain ⟨hclosed, text, htext, -, hlines⟩ := hreads.heard h.upToDate
    have hend := hreads.logEnd
    refine ⟨by rw [hend, hclosing], by rw [hend]; exact hclosed, fun _ => ⟨text, htext, hlines⟩,
      fun cut hcut => ?_⟩
    rw [hend] at hcut
    cases hcut
  rcases h.stands with ⟨-, hshell, hreads⟩ | ⟨hdraining⟩ | @⟨cut, hclosed⟩
  · refine hopen hreads ?_
    rw [Chronicle.closing, hshell]
    rfl
  · obtain ⟨hr, hreached⟩ := h.draining _ _ hdraining.phase
    refine hopen hdraining.reads ?_
    rw [Chronicle.closing, hdraining.shellEnd, Option.bind_some,
      hdraining.reads.pipeEnd_of_reading hr]
    refine Option.filter_eq_none_iff.mpr fun d hd => ?_
    simpa using Instant.reached_eq_false_iff.mp hreached d hd
  · refine ⟨?_, ?_, fun hn => ?_, fun other ho => ?_⟩
    · rw [hclosed.logEnd, hclosed.closing, Option.filter_some, if_pos (decide_eq_true hclosed.past)]
    · rw [hclosed.logEnd]
      exact hclosed.closed
    · rw [hclosed.logEnd] at hn
      cases hn
    · obtain rfl := Option.some.inj (hclosed.logEnd.symm.trans ho)
      exact hclosed.lines

end

end Overseer
