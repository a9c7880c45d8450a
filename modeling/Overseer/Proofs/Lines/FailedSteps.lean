import Mathlib.Data.List.Forall2
import Overseer.Proofs.Lines.Splitting

/-!
# Steps that fail

A strict splitter refuses a step whose bytes cannot be decoded. Such a step takes in nothing and
gives out nothing: the splitter is the same before and after it, the other steps answer as they
would without it (`Splitter.calls_of_sublist`), and each line of what has been taken in is given out
once (`Answered.accounted`).
-/

namespace Overseer.Lines

open Overseer.Octets

namespace Splitter

section

variable {δ : Type} [StreamDecoder δ]

def advance (s : Splitter δ) (steps : List StreamStep) : Splitter δ :=
  steps.foldl (fun s step => (s.take step).1) s

def calls (s : Splitter δ) : List StreamStep → List (StreamStep × StepAnswer)
  | [] => []
  | step :: steps => (step, (s.take step).2) :: calls (s.take step).1 steps

end

end Splitter

def succeeded (call : StreamStep × StepAnswer) : Bool := call.2.isOk

def linesGiven (calls : List (StreamStep × StepAnswer)) : List String :=
  calls.flatMap fun call => (call.2.toOption.map Array.toList).getD []

/-- The bytes that are taken in: those of the streams that have ended and those of the one that goes
on. A step that fails takes in nothing. -/
def takeIn (sofar : List (List UInt8) × List UInt8) :
    StreamStep × StepAnswer → List (List UInt8) × List UInt8
  | (.feed chunk, .ok _) => (sofar.1, sofar.2 ++ chunk)
  | (.flush, .ok _) => (sofar.1 ++ [sofar.2], [])
  | (_, .error _) => sofar

def StreamStep.text (encoding : Encoding) (bytes : List UInt8) :
    StreamStep → Except DecodeError (List Char)
  | .feed chunk => Handler.strict.decodeSoFar encoding (bytes ++ chunk)
  | .flush => Handler.strict.decode encoding bytes

/-- What steps answer after some bytes of a stream. A chunk gives the lines that it ends, and the
end of the stream those left open. A step fails just where there is no text, and then it might as
well not have been taken. -/
inductive Answered (encoding : Encoding) : List UInt8 → List (StreamStep × StepAnswer) → Prop where
  | nil (bytes : List UInt8) : Answered encoding bytes []
  | fed {bytes chunk : List UInt8} {sofar text : List Char} {lines : Array String}
      {calls : List (StreamStep × StepAnswer)} :
      Handler.strict.decodeSoFar encoding bytes = .ok sofar →
      StreamStep.text encoding bytes (.feed chunk) = .ok text →
      endedLines text = endedLines sofar ++ lines.toList →
      Answered encoding (bytes ++ chunk) calls →
      Answered encoding bytes ((.feed chunk, .ok lines) :: calls)
  | flushed {bytes : List UInt8} {sofar text : List Char} {lines : Array String}
      {calls : List (StreamStep × StepAnswer)} :
      Handler.strict.decodeSoFar encoding bytes = .ok sofar →
      StreamStep.text encoding bytes .flush = .ok text →
      splitLines text = endedLines sofar ++ lines.toList →
      Answered encoding [] calls →
      Answered encoding bytes ((.flush, .ok lines) :: calls)
  | refused {bytes piece : List UInt8} {position : Nat} {fault : Fault} {step : StreamStep}
      {calls : List (StreamStep × StepAnswer)} :
      (∀ text, StreamStep.text encoding bytes step ≠ .ok text) →
      Answered encoding bytes calls →
      Answered encoding bytes ((step, .error (.malformed encoding piece position fault)) :: calls)

/-- Some lines are those of the bytes taken in: all of a stream that has ended, and of the one that
goes on those that have ended. -/
def Accounted (encoding : Encoding) (taken : List (List UInt8) × List UInt8) (lines : List String) :
    Prop :=
  ∃ texts text,
    List.Forall₂ (fun bytes text => Handler.strict.decode encoding bytes = .ok text)
      taken.1 texts ∧
    Handler.strict.decodeSoFar encoding taken.2 = .ok text ∧
    lines = texts.flatMap splitLines ++ endedLines text

section

variable {encoding : Encoding} {bytes : List UInt8} {s : Splitter Decoder}

theorem malformed_of_extend {sofar : Array Char × Nat} {piece : Piece} {cause : DecodeError}
    (h : Handler.strict.extend encoding sofar piece = .error cause) :
    ∃ bytes position fault, cause = .malformed encoding bytes position fault := by
  cases piece with
  | char bytes c => cases h
  | malformed bytes fault => exact ⟨bytes, sofar.2, fault, (Except.error.inj h).symm⟩

theorem malformed_of_foldlM {pieces : List Piece} {sofar : Array Char × Nat} {cause : DecodeError}
    (h : pieces.foldlM (Handler.strict.extend encoding) sofar = .error cause) :
    ∃ bytes position fault, cause = .malformed encoding bytes position fault := by
  induction pieces generalizing sofar with
  | nil => cases h
  | cons piece pieces ih =>
    rw [List.foldlM_cons] at h
    cases he : Handler.strict.extend encoding sofar piece with
    | error why =>
      rw [he] at h
      obtain rfl : why = cause := Except.error.inj h
      exact malformed_of_extend he
    | ok next =>
      rw [he] at h
      exact ih h

theorem malformed_of_text {pieces : Array Piece} {cause : DecodeError}
    (h : Handler.strict.text encoding pieces = .error cause) :
    ∃ bytes position fault, cause = .malformed encoding bytes position fault := by
  rw [Handler.text, ← Array.foldlM_toList] at h
  cases hf : pieces.toList.foldlM (Handler.strict.extend encoding) (#[], 0) with
  | error why =>
    rw [hf] at h
    obtain rfl : why = cause := Except.error.inj h
    exact malformed_of_foldlM hf
  | ok next =>
    rw [hf] at h
    cases h

namespace Splitter

def pieces (s : Splitter Decoder) : StreamStep → Array Piece
  | .feed chunk => (s.decoder.encoding.scan s.decoder.pending chunk).1
  | .flush => atEnd s.decoder.pending

theorem take_feed_of_text {chunk : List UInt8} {text : List Char}
    (h : s.decoder.handler.text s.decoder.encoding (s.pieces (.feed chunk)) = .ok text) :
    s.take (.feed chunk) =
      ({ decoder := { s.decoder with
          pending := (s.decoder.encoding.scan s.decoder.pending chunk).2 }
         state := (s.state.feed text).1 }, .ok (s.state.feed text).2) :=
  feed_of_text (Decoder.take_of_text h)

theorem take_flush_of_text {text : List Char}
    (h : s.decoder.handler.text s.decoder.encoding (s.pieces .flush) = .ok text) :
    s.take .flush =
      ({ decoder := { s.decoder with pending := [] } },
        .ok ((s.state.feed text).2 ++ (s.state.feed text).1.rest)) :=
  flush_of_text (Decoder.take_of_text h)

/-- A step first decodes its pieces. When these are refused, nothing has been changed yet: neither
the decoder nor the unfinished line. -/
theorem take_of_refused {step : StreamStep} {cause : DecodeError}
    (h : s.decoder.handler.text s.decoder.encoding (s.pieces step) = .error cause) :
    s.take step = (s, .error cause) := by
  cases step with
  | feed chunk => exact feed_of_refused (Decoder.take_of_refused h)
  | flush => exact flush_of_refused (Decoder.take_of_refused h)

theorem take_error {step : StreamStep} {cause : DecodeError} (h : (s.take step).2 = .error cause) :
    s.decoder.handler.text s.decoder.encoding (s.pieces step) = .error cause ∧
      (s.take step).1 = s := by
  cases htext : s.decoder.handler.text s.decoder.encoding (s.pieces step) with
  | error why =>
    rw [take_of_refused htext] at h ⊢
    obtain rfl : why = cause := Except.error.inj h
    exact ⟨rfl, rfl⟩
  | ok text =>
    cases step with
    | feed chunk =>
      rw [take_feed_of_text htext] at h
      cases h
    | flush =>
      rw [take_flush_of_text htext] at h
      cases h

/-- Bytes that can be decoded after others have a text together with them. -/
theorem text_append_pieces {sofar more : List Char} {step : StreamStep}
    (hs : Handler.strict.decodeSoFar encoding bytes = .ok sofar)
    (hmore : Handler.strict.text encoding ((after encoding .strict bytes sofar).pieces step) =
      .ok more) :
    step.text encoding bytes = .ok (sofar ++ more) := by
  cases step with
  | feed chunk =>
    rw [StreamStep.text, Handler.decodeSoFar, Encoding.scan_append, Handler.text_append_eq_ok_iff]
    exact ⟨sofar, more, hs, hmore, rfl⟩
  | flush =>
    rw [StreamStep.text, Handler.decode, Encoding.pieces, Handler.text_append_eq_ok_iff]
    exact ⟨sofar, more, hs, hmore, rfl⟩

theorem malformed_of_take {step : StreamStep} {cause : DecodeError}
    (hs : s.decoder.handler = .strict) (h : (s.take step).2 = .error cause) :
    ∃ piece position fault, cause = .malformed s.decoder.encoding piece position fault := by
  have htext := (take_error h).1
  rw [hs] at htext
  exact malformed_of_text htext

theorem made_take (s : Splitter Decoder) (step : StreamStep) :
    (s.take step).1.decoder.encoding = s.decoder.encoding ∧
      (s.take step).1.decoder.handler = s.decoder.handler := by
  cases htext : s.decoder.handler.text s.decoder.encoding (s.pieces step) with
  | error cause =>
    rw [take_of_refused htext]
    exact ⟨rfl, rfl⟩
  | ok text =>
    cases step with
    | feed chunk =>
      rw [take_feed_of_text htext]
      exact ⟨rfl, rfl⟩
    | flush =>
      rw [take_flush_of_text htext]
      exact ⟨rfl, rfl⟩

theorem calls_map_fst (s : Splitter Decoder) (steps : List StreamStep) :
    (s.calls steps).map Prod.fst = steps := by
  induction steps generalizing s with
  | nil => rfl
  | cons step steps ih => rw [calls, List.map_cons, ih]

theorem run_eq_calls (hs : s.decoder.handler = .strict) (steps : List StreamStep) :
    s.run steps = .ok ((s.calls steps).map Prod.snd) := by
  induction steps generalizing s with
  | nil => rfl
  | cons step steps ih =>
    have hgoes : stopper? (s.take step).2 = none := by
      cases ha : (s.take step).2 with
      | ok lines => rfl
      | error cause =>
        obtain ⟨_, _, _, rfl⟩ := malformed_of_take hs ha
        rfl
    have hrest := ih ((made_take s step).2.trans hs)
    simp only [run, calls, hgoes, hrest, List.map_cons, Except.map]

/-- Where only steps that fail are left out, the others answer as before. -/
theorem calls_of_sublist {steps : List StreamStep} {kept : List (StreamStep × StepAnswer)}
    (hsub : kept.Sublist (s.calls steps))
    (hkept : kept.filter succeeded = (s.calls steps).filter succeeded) :
    s.calls (kept.map Prod.fst) = kept := by
  induction steps generalizing s kept with
  | nil =>
    obtain rfl : kept = [] := List.sublist_nil.mp hsub
    rfl
  | cons step steps ih =>
    rw [calls] at hsub hkept
    cases hsub with
    | cons _ hsub =>
      -- the step is left out, so it fails and changes nothing
      cases ha : (s.take step).2 with
      | ok lines =>
        have hlength := (hsub.filter succeeded).length_le
        rw [hkept, ha, List.filter_cons_of_pos rfl, List.length_cons] at hlength
        omega
      | error cause =>
        have hsame : (s.take step).1 = s := (take_error ha).2
        have hfails : ¬ succeeded (step, .error cause) = true := Bool.false_ne_true
        rw [ha, List.filter_cons_of_neg hfails, hsame] at hkept
        rw [hsame] at hsub
        exact ih hsub hkept
    | cons_cons _ hsub =>
      rename_i kept
      rw [List.map_cons, calls]
      congr 1
      apply ih hsub
      rw [List.filter_cons, List.filter_cons] at hkept
      split at hkept
      · exact (List.cons.inj hkept).2
      · exact hkept

theorem answered_calls {sofar : List Char} (steps : List StreamStep)
    (hs : Handler.strict.decodeSoFar encoding bytes = .ok sofar) :
    Answered encoding bytes ((after encoding .strict bytes sofar).calls steps) := by
  induction steps generalizing bytes sofar with
  | nil => exact .nil bytes
  | cons step steps ih =>
    rw [calls]
    cases ht : step.text encoding bytes with
    | ok text =>
      cases step with
      | feed chunk =>
        obtain ⟨t, lines, hd, hfeed, hl⟩ := feed_after ht
        obtain rfl : sofar = t := Except.ok.inj (hs.symm.trans hd)
        have htake : (after encoding .strict bytes sofar).take (.feed chunk) =
            (after encoding .strict (bytes ++ chunk) text, .ok lines) := hfeed
        rw [htake]
        exact .fed hs ht hl (ih ht)
      | flush =>
        obtain ⟨t, lines, hd, hflush, hl⟩ := flush_after ht
        obtain rfl : sofar = t := Except.ok.inj (hs.symm.trans hd)
        have htake : (after encoding .strict bytes sofar).take .flush =
            (after encoding .strict [] [], .ok lines) := hflush
        rw [htake]
        exact .flushed hs ht hl (ih rfl)
    -- a step that is refused leaves the bytes that have been taken in
    | error why =>
      have hnone : ∀ text, step.text encoding bytes ≠ .ok text := fun text h => by
        rw [ht] at h
        cases h
      let s := after encoding .strict bytes sofar
      cases hmore : Handler.strict.text encoding (s.pieces step) with
      | ok more => exact absurd (text_append_pieces hs hmore) (hnone _)
      | error cause =>
        obtain ⟨piece, position, fault, rfl⟩ := malformed_of_text hmore
        have htake : s.take step = (s, .error _) := take_of_refused hmore
        rw [htake]
        exact .refused hnone (ih hs)

end Splitter

theorem Answered.accounted {calls : List (StreamStep × StepAnswer)} {ended : List (List UInt8)}
    {lines : List String} (h : Answered encoding bytes calls)
    (ha : Accounted encoding (ended, bytes) lines) :
    Accounted encoding (calls.foldl takeIn (ended, bytes)) (lines ++ linesGiven calls) := by
  induction h generalizing ended lines with
  | nil bytes =>
    rw [linesGiven, List.flatMap_nil, List.append_nil]
    exact ha
  | @fed bytes chunk sofar text given calls hs ht hl _ ih =>
    obtain ⟨texts, current, hended, hcurrent, rfl⟩ := ha
    obtain rfl : sofar = current := Except.ok.inj (hs.symm.trans hcurrent)
    have hnext : Accounted encoding (ended, bytes ++ chunk)
        (texts.flatMap splitLines ++ endedLines sofar ++ given.toList) :=
      ⟨texts, text, hended, ht, by rw [hl, List.append_assoc]⟩
    have hall := ih hnext
    rw [List.append_assoc] at hall
    exact hall
  | @flushed bytes sofar text given calls hs ht hl _ ih =>
    obtain ⟨texts, current, hended, hcurrent, rfl⟩ := ha
    obtain rfl : sofar = current := Except.ok.inj (hs.symm.trans hcurrent)
    have hnext : Accounted encoding (ended ++ [bytes], [])
        (texts.flatMap splitLines ++ endedLines sofar ++ given.toList) := by
      refine ⟨texts ++ [text], [], List.rel_append hended (.cons ht .nil), rfl, ?_⟩
      rw [List.flatMap_append, List.flatMap_singleton, hl, List.append_assoc]
      exact (List.append_nil _).symm
    have hall := ih hnext
    rw [List.append_assoc] at hall
    exact hall
  | @refused bytes piece position fault step calls _ _ ih =>
    have hsame : takeIn (ended, bytes) (step, .error (.malformed encoding piece position fault)) =
        (ended, bytes) := by cases step <;> rfl
    rw [List.foldl_cons, hsame]
    exact ih ha

end

/-- A step that fails leaves a strict splitter as it was: its bytes, its unfinished line and the
`\r` held back. So the other steps, with it or without it, answer the same. What they answer is what
the bytes taken in by then call for, and each line of these is given out once. -/
theorem calls_despite_failures (encoding : Encoding) (steps : List StreamStep) :
    let s := Splitter.fresh encoding .strict
    let calls := s.calls steps
    s.run steps = .ok (calls.map Prod.snd) ∧ calls.map Prod.fst = steps ∧
    (∀ first step rest cause, steps = first ++ step :: rest →
      ((s.advance first).take step).2 = .error cause →
      ((s.advance first).take step).1 = s.advance first) ∧
    (∀ kept : List (StreamStep × StepAnswer), kept.Sublist calls →
      kept.filter succeeded = calls.filter succeeded →
      s.run (kept.map Prod.fst) = .ok (kept.map Prod.snd)) ∧
    Answered encoding [] calls ∧
    Accounted encoding (calls.foldl takeIn ([], [])) (linesGiven calls) := by
  intro s calls
  have hempty : Handler.strict.decodeSoFar encoding [] = .ok [] := rfl
  have hanswered : Answered encoding [] calls := Splitter.answered_calls steps hempty
  refine ⟨Splitter.run_eq_calls rfl steps, Splitter.calls_map_fst s steps,
    fun first step rest cause _ hcause => (Splitter.take_error hcause).2,
    fun kept hsub hkept => ?_, hanswered, ?_⟩
  · rw [Splitter.run_eq_calls rfl, Splitter.calls_of_sublist hsub hkept]
  · have hnone : Accounted encoding ([], []) [] := ⟨[], [], .nil, rfl, rfl⟩
    exact hanswered.accounted hnone

/-- A character that is cut by the end of a chunk outlives the two steps that break it. -/
example : (Splitter.fresh .utf8 .strict).run
      [.feed [0x61, 0xC3], .feed [0x0A], .flush, .feed [0xA9, 0x0A]] =
    .ok [.ok #[], .error (.malformed .utf8 [0xC3] 0 .invalidContinuation),
      .error (.malformed .utf8 [0xC3] 0 .unexpectedEnd), .ok #["aé"]] := by decide

end Overseer.Lines
