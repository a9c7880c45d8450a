import Overseer.Proofs.Lines.FailedSteps

/-!
# A splitter that is as new

The end of a stream gives out what a splitter has kept back of a line, whatever its decoder is.
Whether anything else is left depends on the decoder alone: where the end of a stream makes it new
(`Renewable`), the splitter is new too, and one splitter can read streams one after another, each as
if it were the only one. The decoders of an `Encoding` are like that, and one that looks for a byte
order mark is not.
-/

namespace Overseer

namespace Octets

section

variable {δ : Type} [StreamDecoder δ] {new : δ}

def fed (new : δ) (chunks : List (List UInt8)) : δ :=
  chunks.foldl (fun d bytes => (StreamDecoder.feed d bytes).1) new

/-- A decoder that refuses nothing, and that the end of a stream makes what it was at first. -/
structure Renewable (new : δ) : Prop where
  feed : ∀ chunks bytes, ∃ text, (StreamDecoder.feed (fed new chunks) bytes).2 = .ok text
  finish : ∀ chunks, ∃ text, StreamDecoder.finish (fed new chunks) = (new, .ok text)
  idle : StreamDecoder.finish new = (new, .ok [])

theorem fed_concat (new : δ) (chunks : List (List UInt8)) (bytes : List UInt8) :
    fed new (chunks ++ [bytes]) = (StreamDecoder.feed (fed new chunks) bytes).1 := by
  simp [fed]

end

namespace Decoder

variable {handler : Handler}

theorem feed_of_lenient (h : handler.Lenient) (encoding : Encoding) (first second : List UInt8) :
    ∃ text, (after encoding handler first).feed second =
      (after encoding handler (first ++ second), .ok text) := by
  obtain ⟨whole, hwhole⟩ := h.text encoding (encoding.scan [] (first ++ second)).1
  obtain ⟨-, text, -, -, hfeed⟩ := feed_after hwhole
  exact ⟨text, hfeed⟩

theorem fed_eq (h : handler.Lenient) (encoding : Encoding) (chunks : List (List UInt8)) :
    fed ({ encoding, handler } : Decoder) chunks = after encoding handler chunks.flatten := by
  have hrun : ∀ first, chunks.foldl (fun d bytes => (feed d bytes).1)
      (after encoding handler first) = after encoding handler (first ++ chunks.flatten) := by
    induction chunks with
    | nil =>
      intro first
      rw [List.flatten_nil, List.append_nil, List.foldl_nil]
    | cons bytes chunks ih =>
      intro first
      obtain ⟨text, hfeed⟩ := feed_of_lenient h encoding first bytes
      rw [List.foldl_cons, hfeed, ih, List.flatten_cons, List.append_assoc]
  exact hrun []

/-- With a handler that refuses nothing, nothing outlives the end of a stream. -/
theorem renewable (h : handler.Lenient) (encoding : Encoding) :
    Renewable ({ encoding, handler } : Decoder) where
  feed chunks bytes := by
    obtain ⟨text, hfeed⟩ := feed_of_lenient h encoding chunks.flatten bytes
    rw [fed_eq h]
    exact ⟨text, congrArg Prod.snd hfeed⟩
  finish chunks := by
    obtain ⟨whole, hwhole⟩ := h.text encoding (encoding.pieces chunks.flatten)
    obtain ⟨-, text, -, -, hfinish⟩ := finish_after hwhole
    rw [fed_eq h]
    exact ⟨text, hfinish⟩
  idle := rfl

end Decoder

end Octets

namespace Lines

open Octets

def streamOf (chunks : List (List UInt8)) : List StreamStep := chunks.map .feed ++ [.flush]

def Streamed (encoding : Encoding) (handler : Handler) (chunks : List (List UInt8))
    (answers : List (Array String)) : Prop :=
  answers.length = chunks.length + 1 ∧
    ∃ text, handler.decode encoding chunks.flatten = .ok text ∧
      answers.flatMap Array.toList = splitLines text

namespace Splitter

section

variable {δ : Type} [StreamDecoder δ] {s next : Splitter δ} {new : δ} {lines : Array String}
  {answers : List StepAnswer}

theorem left_of_flush (h : s.flush = (next, .ok lines)) :
    next = { decoder := (StreamDecoder.finish s.decoder).1 } := by
  rcases hf : StreamDecoder.finish s.decoder with ⟨decoder, cause | text⟩
  · rw [flush_of_refused hf] at h
    cases h
  · rw [flush_of_text hf] at h
    cases h
    rfl

theorem advance_append (s : Splitter δ) (first second : List StreamStep) :
    s.advance (first ++ second) = (s.advance first).advance second := List.foldl_append

theorem run_append {first : List StreamStep} (hrun : s.run first = .ok answers)
    (second : List StreamStep) :
    s.run (first ++ second) = ((s.advance first).run second).map (answers ++ ·) := by
  induction first generalizing s answers with
  | nil =>
    obtain rfl : [] = answers := Except.ok.inj hrun
    change s.run second = (s.run second).map id
    cases s.run second <;> rfl
  | cons step first ih =>
    rw [run] at hrun
    rw [List.cons_append, run]
    dsimp only at hrun ⊢
    cases hstop : stopper? (s.take step).2 with
    | some cause =>
      rw [hstop] at hrun
      cases hrun
    | none =>
      rw [hstop] at hrun
      dsimp only at hrun ⊢
      cases hrest : (s.take step).1.run first with
      | error cause =>
        rw [hrest] at hrun
        cases hrun
      | ok rest =>
        rw [hrest] at hrun
        obtain rfl := Except.ok.inj hrun
        have hlast : s.advance (step :: first) = (s.take step).1.advance first := rfl
        rw [ih hrest, hlast]
        cases ((s.take step).1.advance first).run second <;> rfl

def Since (new : δ) (s : Splitter δ) : Prop := ∃ chunks, s.decoder = fed new chunks

/-- Each step is answered with lines, and the end of a stream leaves a new splitter. -/
theorem Since.take (hs : s.Since new) (h : Renewable new) (step : StreamStep) :
    ∃ lines next, s.take step = (next, .ok lines) ∧ next.Since new ∧
      (step = .flush → next = { decoder := new }) := by
  obtain ⟨chunks, hchunks⟩ := hs
  cases step with
  | feed bytes =>
    obtain ⟨text, htext⟩ := h.feed chunks bytes
    have hfeed : StreamDecoder.feed s.decoder bytes = (fed new (chunks ++ [bytes]), .ok text) := by
      rw [hchunks, fed_concat, ← htext]
    exact ⟨_, _, feed_of_text hfeed, ⟨chunks ++ [bytes], rfl⟩, nofun⟩
  | flush =>
    obtain ⟨text, htext⟩ := h.finish chunks
    rw [← hchunks] at htext
    exact ⟨_, _, flush_of_text htext, ⟨[], rfl⟩, fun _ => rfl⟩

theorem Since.run (hs : s.Since new) (h : Renewable new) (steps : List StreamStep) :
    (s.advance steps).Since new ∧
      ∃ answers : List (Array String), s.run steps = .ok (answers.map .ok) := by
  induction steps generalizing s with
  | nil => exact ⟨hs, [], rfl⟩
  | cons step steps ih =>
    obtain ⟨lines, next, htake, hnext, -⟩ := hs.take h step
    obtain ⟨hlast, answers, hrun⟩ := ih hnext
    refine ⟨?_, lines :: answers, ?_⟩
    · rw [advance, List.foldl_cons, htake]
      exact hlast
    · simp [Splitter.run, htake, stopper?, hrun, Except.map]

theorem advance_flush (h : Renewable new) (past : List StreamStep) :
    ({ decoder := new } : Splitter δ).advance (past ++ [.flush]) = { decoder := new } := by
  have hstart : Since new { decoder := new } := ⟨[], rfl⟩
  obtain ⟨lines, next, htake, -, hnew⟩ := (hstart.run h past).1.take h .flush
  rw [advance_append]
  exact (congrArg Prod.fst htake).trans (hnew rfl)

theorem flush_idle (h : Renewable new) :
    ({ decoder := new } : Splitter δ).flush = ({ decoder := new }, .ok #[]) :=
  (flush_of_text h.idle).trans rfl

end

section

variable {encoding : Encoding} {handler : Handler}

theorem run_streams (hhandler : handler.Lenient) (streams : List (List (List UInt8))) :
    ∃ answers : List (List (Array String)),
      (fresh encoding handler).run (streams.flatMap streamOf) = .ok (answers.flatten.map .ok) ∧
        List.Forall₂ (Streamed encoding handler) streams answers := by
  induction streams with
  | nil => exact ⟨[], rfl, .nil⟩
  | cons chunks streams ih =>
    obtain ⟨answers, hrun, hanswers⟩ := ih
    have hstart : handler.decodeSoFar encoding [] = .ok [] := rfl
    obtain ⟨text, htext⟩ := hhandler.text encoding (encoding.pieces chunks.flatten)
    obtain ⟨given, last, hgiven, hlength, -, hlines⟩ := run_after chunks hstart htext
    have hfirst : (fresh encoding handler).run (streamOf chunks) =
        .ok ((given ++ [last]).map .ok) := by
      rw [List.map_append]
      exact hgiven
    -- the end of the first stream leaves a new splitter to the others
    have hnew : (fresh encoding handler).advance (streamOf chunks) = fresh encoding handler :=
      advance_flush (Decoder.renewable hhandler encoding) (chunks.map .feed)
    refine ⟨(given ++ [last]) :: answers, ?_, .cons ⟨?_, text, htext, ?_⟩ hanswers⟩
    · rw [List.flatMap_cons, run_append hfirst, hnew, hrun, List.flatten_cons, List.map_append]
      simp [Except.map]
    · rw [List.length_append, hlength, List.length_singleton]
    · have hnone : endedLines [] = [] := rfl
      rw [hnone, List.nil_append] at hlines
      rw [List.flatMap_append, List.flatMap_singleton, hlines]

end

end Splitter

/-- The end of a stream leaves of a splitter no more than its decoder. Where that is as new then,
and refuses nothing, the splitter is as new whatever has been done with it: what is done from then
on is answered as by a new one, and to end the stream once more gives out nothing. The decoder of
each encoding is as new then, unless its handler can refuse something. So each of some streams is
split as if it were the only one. -/
theorem flush_renews :
    (∀ (δ : Type) [StreamDecoder δ] (s next : Splitter δ) (lines : Array String),
      s.flush = (next, .ok lines) → next = { decoder := (StreamDecoder.finish s.decoder).1 }) ∧
    (∀ (δ : Type) [StreamDecoder δ] (new : δ), Renewable new →
      ∀ past future : List StreamStep, let s : Splitter δ := { decoder := new }
        s.advance (past ++ [.flush]) = s ∧
        ∃ (before : List (Array String)) (last : Array String) (after : List (Array String)),
          s.run past = .ok (before.map .ok) ∧ s.run future = .ok (after.map .ok) ∧
          s.run (past ++ .flush :: future) = .ok ((before ++ last :: after).map .ok) ∧
          (past.getLast? = some .flush → last = #[])) ∧
    ∀ (encoding : Encoding) (handler : Handler), handler.Lenient →
      Renewable ({ encoding, handler } : Decoder) ∧
      ∀ streams : List (List (List UInt8)), ∃ answers : List (List (Array String)),
        (Splitter.fresh encoding handler).run (streams.flatMap streamOf) =
          .ok (answers.flatten.map .ok) ∧
        List.Forall₂ (Streamed encoding handler) streams answers := by
  refine ⟨fun δ _ s next lines => Splitter.left_of_flush, fun δ _ new h past future => ?_,
    fun encoding handler h => ⟨Decoder.renewable h encoding, Splitter.run_streams h⟩⟩
  intro s
  have hstart : s.Since new := ⟨[], rfl⟩
  obtain ⟨hpast, before, hbefore⟩ := hstart.run h past
  obtain ⟨-, after, hafter⟩ := hstart.run h future
  obtain ⟨last, next, hflush, -, -⟩ := hpast.take h .flush
  have hended : s.run (past ++ [.flush]) = .ok ((before ++ [last]).map .ok) := by
    rw [Splitter.run_append hbefore]
    simp [Splitter.run, hflush, Splitter.stopper?, Except.map]
  refine ⟨Splitter.advance_flush h past, before, last, after, hbefore, hafter, ?_, fun hlast => ?_⟩
  · rw [List.append_cons, Splitter.run_append hended, Splitter.advance_flush h, hafter]
    simp [Except.map]
  · obtain ⟨earlier, rfl⟩ := List.getLast?_eq_some_iff.mp hlast
    rw [Splitter.advance_flush h earlier] at hflush
    have hnothing := hflush.symm.trans (Splitter.flush_idle h)
    exact Except.ok.inj (congrArg Prod.snd hnothing)

/-- A `\r` is held back and a character is unfinished when the first stream ends; neither shows in
what is given out for the second one. -/
theorem flush_renews_of_held_return :
    let new : Decoder := { encoding := .utf8, handler := .replace }
    let s : Splitter Decoder := { decoder := new }
    let past : List StreamStep := [.feed [0x61, 0x0D, 0xE2]]
    let future : List StreamStep := [.feed [0x0A, 0x62], .flush]
    Handler.Lenient .replace ∧ Renewable new ∧ s.advance (past ++ [.flush]) = s ∧
    (∃ (before : List (Array String)) (last : Array String) (after : List (Array String)),
      s.run past = .ok (before.map .ok) ∧ s.run future = .ok (after.map .ok) ∧
      s.run (past ++ .flush :: future) = .ok ((before ++ last :: after).map .ok)) ∧
    s.run (past ++ .flush :: future) =
      .ok [.ok #[], .ok #["a", "\uFFFD"], .ok #[""], .ok #["b"]] := by
  intro new s past future
  have hlenient : Handler.Lenient .replace := .inr (.inl rfl)
  obtain ⟨-, hrenews, hencodings⟩ := flush_renews
  have hnew : Renewable new := (hencodings .utf8 .replace hlenient).1
  obtain ⟨hs, before, last, after, hbefore, hafter, hall, -⟩ := hrenews Decoder new hnew past future
  exact ⟨hlenient, hnew, hs, ⟨before, last, after, hbefore, hafter, hall⟩, by decide⟩

/-- A decoder that has passed over a byte order mark does not look for another one, and the end of
the stream changes nothing about that: the second mark is part of a line. -/
theorem flush_leaves_mark_passed :
    let new : Splitter SignedDecoder := { decoder := .unsigned .replace [] }
    let past : List StreamStep := [.feed [0xEF, 0xBB, 0xBF, 0x61]]
    let future : List StreamStep := [.feed [0xEF, 0xBB, 0xBF, 0x62], .flush]
    Splitter.named "utf-8-sig" "replace" = .ok new ∧ Handler.Lenient .replace ∧
    new.run (past ++ .flush :: future) = .ok [.ok #[], .ok #["a"], .ok #[], .ok #["\uFEFFb"]] ∧
    new.run future = .ok [.ok #[], .ok #["b"]] := by
  refine ⟨by decide +kernel, .inr (.inl rfl), by decide, by decide⟩

end Lines

end Overseer
