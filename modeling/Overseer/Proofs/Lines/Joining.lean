import Mathlib.Data.List.Chain
import Overseer.Proofs.Lines.FailedSteps
import Overseer.Proofs.Octets.Encoding

/-!
# Joined lines

No line that a splitter gives out has a break in it (`Splitter.calls_unbroken`). Lines that are
joined, each with a terminator of its own, are found again when their text is split, as long as no
two terminators come to stand together in such a way that they end one line
(`linesOf_joined_eq_iff`).
-/

namespace Overseer.Lines

open Overseer.Octets

instance (line : List Char) : Decidable (Unbroken line) :=
  List.decidableBAll (¬ IsBreak ·) line

namespace LineState

variable {s : LineState} {line : String} {text : List Char}

theorem unbroken_line (h : s.Sound) : Unbroken s.line.toList := by
  rw [LineState.line, String.toList_ofList]
  exact h

theorem unbroken_of_step {c : Char} (h : s.Sound) (hline : line ∈ (s.step c).2) :
    Unbroken line.toList := by
  suffices hs : line = s.line from hs ▸ unbroken_line h
  unfold step at hline
  split at hline
  · simpa [eq_comm] using hline
  · split at hline
    · simpa [eq_comm] using hline
    · split at hline <;> simp at hline

theorem unbroken_of_feed (h : s.Sound) (hline : line ∈ (s.feed text).2.toList) :
    Unbroken line.toList := by
  induction text generalizing s with
  | nil => simp [feed] at hline
  | cons c text ih =>
    rw [(feed_cons c text).2] at hline
    rcases List.mem_append.mp hline with hline | hline
    · exact unbroken_of_step h (by simpa using hline)
    · exact ih (sound_step h c) hline

theorem unbroken_of_rest (h : s.Sound) (hline : line ∈ s.rest.toList) : Unbroken line.toList := by
  unfold rest at hline
  split at hline
  · obtain rfl : line = s.line := by simpa using hline
    exact unbroken_line h
  · simp at hline

end LineState

namespace Splitter

variable {δ : Type} [StreamDecoder δ] {s : Splitter δ} {step : StreamStep}
  {steps : List StreamStep} {lines : Array String}

/-- A step gives out unbroken lines, and what it leaves open is unbroken too. -/
theorem take_unbroken (h : s.state.Sound) (step : StreamStep) :
    (s.take step).1.state.Sound ∧
      ∀ lines, (s.take step).2 = .ok lines → ∀ line ∈ lines.toList, Unbroken line.toList := by
  cases step with
  | feed bytes =>
    rw [take]
    rcases hf : StreamDecoder.feed s.decoder bytes with ⟨decoder, cause | text⟩
    · rw [feed_of_refused hf]
      refine ⟨h, fun lines hlines => ?_⟩
      cases hlines
    · rw [feed_of_text hf]
      refine ⟨LineState.sound_feed h text, fun lines hlines line hline => ?_⟩
      obtain rfl := Except.ok.inj hlines
      exact LineState.unbroken_of_feed h hline
  | flush =>
    rw [take]
    rcases hf : StreamDecoder.finish s.decoder with ⟨decoder, cause | text⟩
    · rw [flush_of_refused hf]
      refine ⟨h, fun lines hlines => ?_⟩
      cases hlines
    · rw [flush_of_text hf]
      refine ⟨LineState.sound_empty, fun lines hlines line hline => ?_⟩
      obtain rfl := Except.ok.inj hlines
      rw [Array.toList_append] at hline
      rcases List.mem_append.mp hline with hline | hline
      · exact LineState.unbroken_of_feed h hline
      · exact LineState.unbroken_of_rest (LineState.sound_feed h text) hline

theorem calls_unbroken (h : s.state.Sound) (hcall : (step, .ok lines) ∈ s.calls steps) :
    ∀ line ∈ lines.toList, Unbroken line.toList := by
  induction steps generalizing s with
  | nil => cases hcall
  | cons first steps ih =>
    obtain ⟨hnext, hlines⟩ := take_unbroken h first
    rw [calls] at hcall
    rcases List.mem_cons.mp hcall with he | hcall
    · exact hlines lines (congrArg Prod.snd he).symm
    · exact ih hnext hcall

end Splitter

structure Line where
  text : List Char
  unbroken : Unbroken text

inductive Terminator where
  | lineFeed
  | returnFeed
  | loneReturn
  deriving DecidableEq, Repr

def Terminator.text : Terminator → List Char
  | .lineFeed => ['\n']
  | .returnFeed => ['\r', '\n']
  | .loneReturn => ['\r']

/-- The text of some lines with their terminators, and of a last one that nothing ends. -/
def joined (ended : List (Line × Terminator)) (last : Line) : List Char :=
  ended.flatMap (fun l => l.1.text ++ l.2.text) ++ last.text

def original (ended : List (Line × Terminator)) (last : Line) : List (List Char) :=
  ended.map (·.1.text) ++ if last.text = [] then [] else [last.text]

/-- No lone `\r` is directly followed by an empty line with the terminator `\n`: the two would end
one line. -/
def Separable (ended : List (Line × Terminator)) : Prop :=
  ended.IsChain fun l next => ¬ (l.2 = .loneReturn ∧ next.1.text = [] ∧ next.2 = .lineFeed)

instance (ended : List (Line × Terminator)) : Decidable (Separable ended) :=
  inferInstanceAs (Decidable (ended.IsChain _))

section

variable {line last : Line} {terminator : Terminator} {l : Line × Terminator}
  {ended : List (Line × Terminator)} {rest : List Char}

theorem joined_cons (l : Line × Terminator) (ended : List (Line × Terminator)) (last : Line) :
    joined (l :: ended) last = l.1.text ++ (l.2.text ++ joined ended last) := by
  simp [joined]

theorem original_cons (l : Line × Terminator) (ended : List (Line × Terminator)) (last : Line) :
    original (l :: ended) last = l.1.text :: original ended last := rfl

theorem linesOf_line_append (line : Line) {more : List (List Char)}
    (h : linesOf true rest = [] :: more) :
    linesOf true (line.text ++ rest) = line.text :: more := by
  simpa using linesOf_append line.unbroken h

theorem linesOf_terminator (h : terminator = .loneReturn → rest.head? ≠ some '\n') :
    linesOf true (terminator.text ++ rest) = [] :: linesOf true rest := by
  cases terminator with
  | lineFeed => exact linesOf_newline rest
  | returnFeed => rfl
  | loneReturn =>
    cases rest with
    | nil => rfl
    | cons c rest => exact linesOf_return (fun hc => h rfl (hc ▸ rfl)) rest

/-- A text of joined lines begins with `\n` only where its first line is empty. -/
theorem head?_joined :
    (joined ended last).head? = some '\n' ↔
      ∃ next ∈ ended.head?, next.1.text = [] ∧ next.2 = .lineFeed := by
  have hne : ∀ {line : Line} {c : Char} {text : List Char}, line.text = c :: text → c ≠ '\n' :=
    fun {line} {c} _ h hc => line.unbroken c (h ▸ List.mem_cons_self) (.inl hc)
  cases ended with
  | nil =>
    cases hl : last.text with
    | nil => simp [joined, hl]
    | cons c text => simp [joined, hl, hne hl]
  | cons l ended =>
    cases hl : l.1.text with
    | nil => cases ht : l.2 <;> simp [joined, hl, ht, Terminator.text]
    | cons c text => simp [joined, hl, hne hl]

theorem separable_cons (last : Line) :
    Separable (l :: ended) ↔
      (l.2 = .loneReturn → (joined ended last).head? ≠ some '\n') ∧ Separable ended := by
  rw [Separable, List.isChain_cons, Separable, Ne, head?_joined]
  refine and_congr_left fun _ => ⟨?_, ?_⟩
  · rintro h hl ⟨next, hnext, hempty⟩
    exact h next hnext ⟨hl, hempty⟩
  · rintro h next hnext ⟨hl, hempty⟩
    exact h hl ⟨next, hnext, hempty⟩

/-- A line is found again, unless its terminator goes together with what follows. -/
theorem linesOf_joined_cons (h : l.2 = .loneReturn → (joined ended last).head? ≠ some '\n') :
    linesOf true (joined (l :: ended) last) = l.1.text :: linesOf true (joined ended last) := by
  rw [joined_cons]
  exact linesOf_line_append l.1 (linesOf_terminator h)

theorem length_linesOf_merged (hl : l.2 = .loneReturn)
    (h : (joined ended last).head? = some '\n') :
    (linesOf true (joined (l :: ended) last)).length =
      (linesOf true (joined ended last)).length := by
  obtain ⟨rest, hrest⟩ := List.head?_eq_some_iff.mp h
  have hmerged : linesOf true (l.2.text ++ '\n' :: rest) = [] :: linesOf true rest := by
    rw [hl]
    rfl
  rw [joined_cons, hrest, linesOf_line_append l.1 hmerged, linesOf_newline, List.length_cons,
    List.length_cons]

theorem linesOf_joined_nil (last : Line) : linesOf true (joined [] last) = original [] last := by
  rw [joined, original, List.flatMap_nil, List.nil_append, linesOf_unbroken last.unbroken]
  cases last.text <;> simp

theorem length_linesOf_le (ended : List (Line × Terminator)) (last : Line) :
    (linesOf true (joined ended last)).length ≤ (original ended last).length := by
  induction ended with
  | nil => exact Nat.le_of_eq (congrArg List.length (linesOf_joined_nil last))
  | cons l ended ih =>
    rw [original_cons, List.length_cons]
    by_cases h : l.2 = .loneReturn → (joined ended last).head? ≠ some '\n'
    · rw [linesOf_joined_cons h, List.length_cons]
      exact Nat.succ_le_succ ih
    · obtain ⟨hl, hhead⟩ := Classical.not_imp.mp h
      rw [length_linesOf_merged hl (not_not.mp hhead)]
      exact Nat.le_succ_of_le ih

theorem linesOf_joined_eq_iff :
    linesOf true (joined ended last) = original ended last ↔ Separable ended := by
  induction ended with
  | nil =>
    rw [linesOf_joined_nil]
    exact iff_of_true rfl .nil
  | cons l ended ih =>
    rw [original_cons, separable_cons last]
    by_cases h : l.2 = .loneReturn → (joined ended last).head? ≠ some '\n'
    · rw [linesOf_joined_cons h, List.cons_inj_right, ih, and_iff_right h]
    · refine iff_of_false (fun he => ?_) fun hs => h hs.1
      -- there is a terminator less, and so a line less
      obtain ⟨hl, hhead⟩ := Classical.not_imp.mp h
      have hlength := congrArg List.length he
      rw [length_linesOf_merged hl (not_not.mp hhead), List.length_cons] at hlength
      have hle := length_linesOf_le ended last
      omega

theorem splitLines_joined_eq_iff :
    splitLines (joined ended last) = asRecorded (original ended last) ↔ Separable ended := by
  have hinj : Function.Injective String.ofList := fun _ _ => String.ofList_injective
  rw [splitLines, asRecorded, asRecorded, (List.map_injective_iff.mpr hinj).eq_iff,
    linesOf_joined_eq_iff]

end

/-- Splitting undoes joining: however the bytes of joined lines are cut, a splitter gives out these
lines again, just if they are separable. Conversely, whatever bytes it is fed, no line that it gives
out has a break in it. -/
theorem splitting_undoes_joining :
    (∀ (handler : Handler) (ended : List (Line × Terminator)) (last : Line)
        (chunks : List (List UInt8)), chunks.flatten = Utf8.encode (joined ended last) →
      ∃ (answers : List (Array String)) (final : Array String),
        (Splitter.fresh .utf8 handler).run (chunks.map .feed ++ [.flush]) =
          .ok (answers.map .ok ++ [.ok final]) ∧
        (answers.flatMap Array.toList ++ final.toList = asRecorded (original ended last) ↔
          Separable ended)) ∧
    ∀ (encoding : Encoding) (handler : Handler) (steps : List StreamStep) (step : StreamStep)
      (lines : Array String), (step, .ok lines) ∈ (Splitter.fresh encoding handler).calls steps →
      ∀ line ∈ lines.toList, '\r' ∉ line.toList ∧ '\n' ∉ line.toList := by
  constructor
  · intro handler ended last chunks hchunks
    have hstart : handler.decodeSoFar .utf8 [] = .ok [] := rfl
    have htext : handler.decode .utf8 ([] ++ chunks.flatten) = .ok (joined ended last) := by
      rw [List.nil_append, hchunks]
      exact handler.decode_encode _
    obtain ⟨answers, final, hrun, -, -, hall⟩ := Splitter.run_after chunks hstart htext
    have hnone : endedLines [] = [] := rfl
    rw [hnone, List.nil_append] at hall
    exact ⟨answers, final, hrun, by rw [hall]; exact splitLines_joined_eq_iff⟩
  · intro encoding handler steps step lines hcall line hline
    have hunbroken := Splitter.calls_unbroken LineState.sound_empty hcall line hline
    exact ⟨fun hm => hunbroken _ hm (.inr rfl), fun hm => hunbroken _ hm (.inl rfl)⟩

/-- The bytes are cut inside a character and between `\r` and `\n`, and a lone `\r` is followed by
an empty line. -/
theorem splitting_undoes_joining_of_cut_bytes :
    let ended : List (Line × Terminator) :=
      [(⟨['é'], by decide⟩, .loneReturn), (⟨[], by decide⟩, .returnFeed),
        (⟨['b'], by decide⟩, .lineFeed)]
    let last : Line := ⟨['c'], by decide⟩
    let chunks : List (List UInt8) := [[0xC3], [0xA9, 0x0D], [], [0x0D], [0x0A, 0x62, 0x0A, 0x63]]
    chunks.flatten = Utf8.encode (joined ended last) ∧ Separable ended ∧
    (∃ (answers : List (Array String)) (final : Array String),
      (Splitter.fresh .utf8 .replace).run (chunks.map .feed ++ [.flush]) =
        .ok (answers.map .ok ++ [.ok final]) ∧
      answers.flatMap Array.toList ++ final.toList = ["é", "", "b", "c"]) ∧
    (.flush, .ok #["a\uFFFD"]) ∈ (Splitter.fresh .utf8 .replace).calls
      [.feed [0x61, 0xE2], .flush] ∧
    '\r' ∉ "a\uFFFD".toList ∧ '\n' ∉ "a\uFFFD".toList := by
  intro ended last chunks
  have hchunks : chunks.flatten = Utf8.encode (joined ended last) := by decide
  have hseparable : Separable ended := by decide
  have hcall : (.flush, .ok #["a\uFFFD"]) ∈
      (Splitter.fresh .utf8 .replace).calls [.feed [0x61, 0xE2], .flush] := by decide
  obtain ⟨hjoined, hunbroken⟩ := splitting_undoes_joining
  obtain ⟨answers, final, hrun, hlines⟩ := hjoined .replace ended last chunks hchunks
  exact ⟨hchunks, hseparable, ⟨answers, final, hrun, hlines.mpr hseparable⟩, hcall,
    hunbroken .utf8 .replace _ _ _ hcall _ (by decide)⟩

end Overseer.Lines
