import Overseer.Lines.Stream
import Overseer.Proofs.Octets.Decoding

/-!
# Lines of a whole text

The lines of a text, said of the text as a whole (`splitLines`), and those of them that have ended
whatever comes after the text (`endedLines`). A splitter that is fed the bytes of a stream chunk by
chunk gives out each line as soon as it has ended for certain, and the rest at the end. So the lines
do not depend on the chunks.
-/

namespace Overseer.Lines

open Overseer.Octets

def IsBreak (c : Char) : Prop := c = '\n' ∨ c = '\r'

instance (c : Char) : Decidable (IsBreak c) := inferInstanceAs (Decidable (_ ∨ _))

/-- A character put before the first of some lines. Where there is none, the character alone is a
line if the text is complete. -/
def lead (complete : Bool) (c : Char) : List (List Char) → List (List Char)
  | [] => if complete then [[c]] else []
  | line :: lines => (c :: line) :: lines

/-- The lines of a text. Where the text may go on, what no break has ended for certain is left
out. -/
def linesOf (complete : Bool) : List Char → List (List Char)
  | [] => []
  | ['\r'] => if complete then [[]] else []
  | '\r' :: '\n' :: rest => [] :: linesOf complete rest
  | c :: rest =>
    if IsBreak c then [] :: linesOf complete rest else lead complete c (linesOf complete rest)

def asRecorded (lines : List (List Char)) : List String := lines.map String.ofList

/-- The lines of a complete text: an unfinished last line counts, unless it is empty. -/
def splitLines (text : List Char) : List String := asRecorded (linesOf true text)

def endedLines (text : List Char) : List String := asRecorded (linesOf false text)

example : splitLines "a\r\n\rb".toList = ["a", "", "b"] := by decide

example : endedLines "a\r\n\rb\r".toList = ["a", ""] := by decide

def Unbroken (line : List Char) : Prop := ∀ c ∈ line, ¬ IsBreak c

section

variable {complete : Bool} {c : Char} {line : List Char}

theorem unbroken_nil : Unbroken [] := by simp [Unbroken]

theorem unbroken_cons : Unbroken (c :: line) ↔ ¬ IsBreak c ∧ Unbroken line := by simp [Unbroken]

theorem linesOf_cons (hc : ¬ IsBreak c) (rest : List Char) :
    linesOf complete (c :: rest) = lead complete c (linesOf complete rest) := by
  have hr : c ≠ '\r' := fun e => hc (.inr e)
  rw [linesOf, if_neg hc]
  · intro e _
    exact hr e
  · intro _ e _
    exact hr e

theorem linesOf_newline (rest : List Char) :
    linesOf complete ('\n' :: rest) = [] :: linesOf complete rest := by
  rw [linesOf, if_pos (show IsBreak '\n' from .inl rfl)]
  · intro e _
    cases e
  · intro _ e _
    cases e

theorem linesOf_return (hc : c ≠ '\n') (rest : List Char) :
    linesOf complete ('\r' :: c :: rest) = [] :: linesOf complete (c :: rest) := by
  rw [linesOf, if_pos (show IsBreak '\r' from .inr rfl)]
  · intro _ e
    cases e
  · intro _ _ e
    exact hc (List.cons.inj e).1

theorem linesOf_unbroken (h : Unbroken line) :
    linesOf complete line = if complete && !line.isEmpty then [line] else [] := by
  induction line with
  | nil => simp [linesOf]
  | cons c line ih =>
    obtain ⟨hc, hl⟩ := unbroken_cons.mp h
    rw [linesOf_cons hc, ih hl]
    cases complete <;> cases line <;> simp [lead]

/-- A `\r` at the end of a text that may go on has not ended its line. -/
theorem linesOf_append_return (h : Unbroken line) :
    linesOf complete (line ++ ['\r']) = if complete then [line] else [] := by
  induction line with
  | nil => rfl
  | cons c line ih =>
    obtain ⟨hc, hl⟩ := unbroken_cons.mp h
    rw [List.cons_append, linesOf_cons hc, ih hl]
    cases complete <;> rfl

theorem linesOf_append (h : Unbroken line) {rest first : List Char} {more : List (List Char)}
    (hr : linesOf complete rest = first :: more) :
    linesOf complete (line ++ rest) = (line ++ first) :: more := by
  induction line with
  | nil => exact hr
  | cons c line ih =>
    obtain ⟨hc, hl⟩ := unbroken_cons.mp h
    rw [List.cons_append, linesOf_cons hc, ih hl]
    rfl

end

namespace LineState

def text (s : LineState) : List Char :=
  s.unfinished.reverse ++ if s.heldReturn then ['\r'] else []

def Sound (s : LineState) : Prop := Unbroken s.unfinished.reverse

variable {s : LineState}

theorem sound_empty : Sound {} := unbroken_nil

theorem sound_fresh {c : Char} (hc : c ≠ '\n') : (fresh c).Sound := by
  by_cases hr : c = '\r'
  · simp [fresh, hr, Sound, Unbroken]
  · simp [fresh, hr, hc, Sound, Unbroken, IsBreak]

theorem text_fresh (c : Char) : (fresh c).text = [c] := by
  by_cases hr : c = '\r' <;> simp [fresh, text, hr]

theorem sound_step (h : s.Sound) (c : Char) : (s.step c).1.Sound := by
  unfold step
  by_cases hn : c = '\n'
  · by_cases hh : s.heldReturn <;> simp [hn, hh, Sound, Unbroken]
  · by_cases hh : s.heldReturn
    · simpa [hn, hh] using sound_fresh hn
    · by_cases hr : c = '\r'
      · simpa [hr, hh, Sound] using h
      · simp only [hn, hh, hr, Bool.false_eq_true, ↓reduceIte, Sound, List.reverse_cons]
        intro d hd
        rcases List.mem_append.mp hd with hd | hd
        · exact h d hd
        · rw [List.mem_singleton.mp hd]
          exact fun hb => hb.elim hn hr

theorem linesOf_text (h : s.Sound) (complete : Bool) :
    asRecorded (linesOf complete s.text) = if complete then s.rest.toList else [] := by
  unfold text
  by_cases hh : s.heldReturn
  · rw [if_pos hh, linesOf_append_return h]
    cases complete <;> simp [hh, rest, line, asRecorded]
  · rw [if_neg hh, List.append_nil, linesOf_unbroken h]
    cases complete <;> cases hu : s.unfinished <;> simp [hh, rest, line, asRecorded, hu]

/-- The line that one more character ends is the first of what is held back and what follows. -/
theorem linesOf_step (h : s.Sound) (complete : Bool) (c : Char) (following : List Char) :
    asRecorded (linesOf complete (s.text ++ c :: following)) =
      (s.step c).2.toList ++ asRecorded (linesOf complete ((s.step c).1.text ++ following)) := by
  unfold step
  by_cases hh : s.heldReturn
  · by_cases hn : c = '\n'
    · have hr :
        linesOf complete ('\r' :: '\n' :: following) = [] :: linesOf complete following := rfl
      simp [hh, hn, text, linesOf_append h hr, asRecorded, line]
    · have hr :
        linesOf complete ('\r' :: c :: following) = [] :: linesOf complete (c :: following) :=
        linesOf_return hn following
      simp only [hh, hn, ↓reduceIte, text_fresh]
      simp [hh, text, linesOf_append h hr, asRecorded, line]
  · by_cases hn : c = '\n'
    · have hr : linesOf complete ('\n' :: following) = [] :: linesOf complete following :=
        linesOf_newline following
      simp [hh, hn, text, linesOf_append h hr, asRecorded, line]
    · by_cases hr : c = '\r' <;> simp [hh, hr, hn, text]

theorem feed_cons (c : Char) (text : List Char) :
    (s.feed (c :: text)).1 = ((s.step c).1.feed text).1 ∧
      (s.feed (c :: text)).2.toList = (s.step c).2.toList ++ ((s.step c).1.feed text).2.toList := by
  rw [feed, List.foldl_cons, feedChar]
  cases hs : s.step c with
  | mk next ended => cases ended <;> simp [foldl_feedChar]

theorem sound_feed (h : s.Sound) (text : List Char) : (s.feed text).1.Sound := by
  induction text generalizing s with
  | nil => exact h
  | cons c text ih =>
    rw [(feed_cons c text).1]
    exact ih (sound_step h c)

/-- The lines that a text ends are those of what was held back and the text. -/
theorem linesOf_feed (h : s.Sound) (complete : Bool) (text : List Char) :
    asRecorded (linesOf complete (s.text ++ text)) =
      (s.feed text).2.toList ++ asRecorded (linesOf complete (s.feed text).1.text) := by
  induction text generalizing s with
  | nil => simp [feed]
  | cons c text ih =>
    obtain ⟨hstate, hlines⟩ := feed_cons (s := s) c text
    rw [linesOf_step h, ih (sound_step h c), hstate, hlines, List.append_assoc]

theorem endedLines_eq_feed (text : List Char) : endedLines text = (feed {} text).2.toList := by
  have h := linesOf_feed sound_empty false text
  rwa [linesOf_text (sound_feed sound_empty text), if_neg Bool.false_ne_true, List.append_nil] at h

theorem splitLines_eq_feed (text : List Char) :
    splitLines text = (feed {} text).2.toList ++ (feed {} text).1.rest.toList := by
  have h := linesOf_feed sound_empty true text
  rwa [linesOf_text (sound_feed sound_empty text), if_pos rfl] at h

end LineState

namespace Splitter

section

variable {δ : Type} [StreamDecoder δ] {s : Splitter δ} {decoder : δ} {text : List Char}
  {cause : DecodeError}

theorem feed_of_text {bytes : List UInt8}
    (h : StreamDecoder.feed s.decoder bytes = (decoder, .ok text)) :
    s.feed bytes = ({ decoder, state := (s.state.feed text).1 }, .ok (s.state.feed text).2) := by
  rw [feed, h]

theorem feed_of_refused {bytes : List UInt8}
    (h : StreamDecoder.feed s.decoder bytes = (decoder, .error cause)) :
    s.feed bytes = ({ s with decoder }, .error cause) := by
  rw [feed, h]

theorem flush_of_text (h : StreamDecoder.finish s.decoder = (decoder, .ok text)) :
    s.flush = ({ decoder }, .ok ((s.state.feed text).2 ++ (s.state.feed text).1.rest)) := by
  rw [flush, h]

theorem flush_of_refused (h : StreamDecoder.finish s.decoder = (decoder, .error cause)) :
    s.flush = ({ s with decoder }, .error cause) := by
  rw [flush, h]

/-- A decoder that does not look for a byte order mark, or no longer, is the one that it holds. -/
theorem run_signed (decoder : Decoder) (state : LineState) (steps : List StreamStep) :
    ({ decoder := SignedDecoder.signed decoder, state } : Splitter SignedDecoder).run steps =
      ({ decoder, state } : Splitter Decoder).run steps := by
  induction steps generalizing decoder state with
  | nil => rfl
  | cons step steps ih =>
    have htake : ∃ next last answer,
        ({ decoder := .signed decoder, state } : Splitter SignedDecoder).take step =
          ({ decoder := .signed next, state := last }, answer) ∧
        ({ decoder, state } : Splitter Decoder).take step =
          ({ decoder := next, state := last }, answer) := by
      cases step with
      | feed bytes =>
        rcases hf : decoder.feed bytes with ⟨next, cause | text⟩
        · have hs : SignedDecoder.feed (.signed decoder) bytes = (.signed next, .error cause) := by
            rw [SignedDecoder.feed, hf]
          exact ⟨next, _, _, feed_of_refused hs, feed_of_refused hf⟩
        · have hs : SignedDecoder.feed (.signed decoder) bytes = (.signed next, .ok text) := by
            rw [SignedDecoder.feed, hf]
          exact ⟨next, _, _, feed_of_text hs, feed_of_text hf⟩
      | flush =>
        rcases hf : decoder.finish with ⟨next, cause | text⟩
        · have hs : SignedDecoder.finish (.signed decoder) = (.signed next, .error cause) := by
            rw [SignedDecoder.finish, hf]
          exact ⟨next, _, _, flush_of_refused hs, flush_of_refused hf⟩
        · have hs : SignedDecoder.finish (.signed decoder) = (.signed next, .ok text) := by
            rw [SignedDecoder.finish, hf]
          exact ⟨next, _, _, flush_of_text hs, flush_of_text hf⟩
    obtain ⟨next, last, answer, hsigned, hplain⟩ := htake
    simp only [run, hsigned, hplain, ih]

end

variable {encoding : Encoding} {handler : Handler}

def after (encoding : Encoding) (handler : Handler) (bytes : List UInt8) (text : List Char) :
    Splitter Decoder :=
  { decoder := .after encoding handler bytes, state := (LineState.feed {} text).1 }

/-- A chunk ends the lines that the text so far ends and the text before it did not. -/
theorem feed_after {first second : List UInt8} {text : List Char}
    (h : handler.decodeSoFar encoding (first ++ second) = .ok text) :
    ∃ sofar lines, handler.decodeSoFar encoding first = .ok sofar ∧
      (after encoding handler first sofar).feed second =
        (after encoding handler (first ++ second) text, .ok lines) ∧
      endedLines text = endedLines sofar ++ lines.toList := by
  obtain ⟨s, t, hs, rfl, hfeed⟩ := Decoder.feed_after h
  refine ⟨s, ((LineState.feed {} s).1.feed t).2, hs, ?_, ?_⟩
  · refine (feed_of_text hfeed).trans ?_
    simp [after, LineState.feed_append]
  · simp [LineState.endedLines_eq_feed, LineState.feed_append]

/-- The end of the stream gives out the lines that have not ended before. -/
theorem flush_after {bytes : List UInt8} {text : List Char}
    (h : handler.decode encoding bytes = .ok text) :
    ∃ sofar lines, handler.decodeSoFar encoding bytes = .ok sofar ∧
      (after encoding handler bytes sofar).flush = (after encoding handler [] [], .ok lines) ∧
      splitLines text = endedLines sofar ++ lines.toList := by
  obtain ⟨s, t, hs, rfl, hfinish⟩ := Decoder.finish_after h
  refine ⟨s, ((LineState.feed {} s).1.feed t).2 ++ ((LineState.feed {} s).1.feed t).1.rest, hs,
    ?_, ?_⟩
  · exact flush_of_text hfinish
  · simp [LineState.splitLines_eq_feed, LineState.endedLines_eq_feed, LineState.feed_append]

def fresh (encoding : Encoding) (handler : Handler) : Splitter Decoder :=
  { decoder := { encoding, handler } }

/-- Fed chunk by chunk after some bytes, a splitter refuses nothing, and at each moment has given
out the lines ended so far. -/
theorem run_after {start : List UInt8} {sofar text : List Char} (chunks : List (List UInt8))
    (hs : handler.decodeSoFar encoding start = .ok sofar)
    (ht : handler.decode encoding (start ++ chunks.flatten) = .ok text) :
    ∃ (answers : List (Array String)) (last : Array String),
      (after encoding handler start sofar).run (chunks.map .feed ++ [.flush]) =
        .ok (answers.map .ok ++ [.ok last]) ∧
      answers.length = chunks.length ∧
      (∀ k ≤ chunks.length, ∃ t,
        handler.decodeSoFar encoding (start ++ (chunks.take k).flatten) = .ok t ∧
        endedLines sofar ++ (answers.take k).flatMap Array.toList = endedLines t) ∧
      endedLines sofar ++ (answers.flatMap Array.toList ++ last.toList) = splitLines text := by
  induction chunks generalizing start sofar with
  | nil =>
    rw [List.flatten_nil, List.append_nil] at ht
    obtain ⟨t, last, hd, hflush, hl⟩ := flush_after ht
    obtain rfl : sofar = t := Except.ok.inj (hs.symm.trans hd)
    refine ⟨[], last, ?_, rfl, ?_, by simpa using hl.symm⟩
    · simp [run, take, hflush, stopper?, Except.map]
    · intro k _
      exact ⟨sofar, by simpa using hs, by simp⟩
  | cons chunk chunks ih =>
    rw [List.flatten_cons, ← List.append_assoc] at ht
    obtain ⟨middle, hm⟩ := Handler.decodeSoFar_of_decode_append ht
    obtain ⟨t, lines, hd, hfeed, hl⟩ := feed_after hm
    obtain rfl : sofar = t := Except.ok.inj (hs.symm.trans hd)
    obtain ⟨answers, last, hrun, hlen, hsofar, hall⟩ := ih hm ht
    refine ⟨lines :: answers, last, ?_, by simp [hlen], ?_, ?_⟩
    · simp [run, take, hfeed, stopper?, hrun, Except.map]
    · intro k hk
      cases k with
      | zero => exact ⟨sofar, by simpa using hs, by simp⟩
      | succ k =>
        obtain ⟨t, ht, hlines⟩ := hsofar k (by simpa using hk)
        exact ⟨t, by simpa using ht, by simpa [hl] using hlines⟩
    · simpa [hl] using hall

end Splitter

/-- The lines that a splitter gives out do not depend on how a stream is cut: nothing is refused,
after each chunk the lines given out are those that the text so far has ended, and all together are
the lines of the whole text. -/
theorem lines_of_chunks (encoding : Encoding) (handler : Handler) (chunks : List (List UInt8)) :
    (handler.Lenient → ∃ text, handler.decode encoding chunks.flatten = .ok text) ∧
    ∀ text, handler.decode encoding chunks.flatten = .ok text →
      ∃ (answers : List (Array String)) (last : Array String),
        (Splitter.fresh encoding handler).run (chunks.map .feed ++ [.flush]) =
          .ok (answers.map .ok ++ [.ok last]) ∧
        answers.length = chunks.length ∧
        (∀ k ≤ chunks.length, ∃ sofar,
          handler.decodeSoFar encoding (chunks.take k).flatten = .ok sofar ∧
          (answers.take k).flatMap Array.toList = endedLines sofar) ∧
        answers.flatMap Array.toList ++ last.toList = splitLines text := by
  refine ⟨fun h => h.text _ _, fun text ht => ?_⟩
  have hs : handler.decodeSoFar encoding [] = .ok [] := rfl
  obtain ⟨answers, last, hrun, hlen, hsofar, hall⟩ := Splitter.run_after chunks hs ht
  have he : endedLines [] = [] := rfl
  simp only [he, List.nil_append] at hsofar hall
  exact ⟨answers, last, hrun, hlen, hsofar, hall⟩

/-- A character, a `\r\n` and a broken sequence, each cut by the end of a chunk. -/
theorem lines_of_cut_chunks :
    (∃ text, Handler.decode .replace .utf8 [0x61, 0xC3, 0xA9, 0x0D, 0x0A, 0xE2, 0x82] = .ok text) ∧
    ∃ (answers : List (Array String)) (last : Array String),
      (Splitter.fresh .utf8 .replace).run
          [.feed [0x61, 0xC3], .feed [0xA9, 0x0D], .feed [0x0A, 0xE2, 0x82], .flush] =
        .ok (answers.map .ok ++ [.ok last]) ∧
      answers.flatMap Array.toList ++ last.toList = ["aé", "\uFFFD"] := by
  obtain ⟨hlenient, hlines⟩ :=
    lines_of_chunks .utf8 .replace [[0x61, 0xC3], [0xA9, 0x0D], [0x0A, 0xE2, 0x82]]
  obtain ⟨answers, last, hrun, -, -, hall⟩ := hlines "aé\r\n\uFFFD".toList (by decide)
  exact ⟨hlenient (.inr (.inl rfl)), answers, last, hrun, hall.trans (by decide)⟩

end Overseer.Lines
