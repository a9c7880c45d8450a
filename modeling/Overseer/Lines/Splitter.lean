import Overseer.Octets.Decoder

/-!
# Lines of a byte stream

A line ends at `\n`, at `\r\n` or at a lone `\r`. A `\r` at the end of what has come so far is held
back until the next character shows whether it is half of `\r\n`. `LineState` splits text one
character at a time, so that where a text is cut does not matter (`LineState.feed_append`);
`Splitter` puts a decoder in front of it.
-/

namespace Overseer.Lines

open Overseer.Octets

/-- The unfinished line, its last character first, and whether a `\r` after it is held back. -/
structure LineState where
  unfinished : List Char := []
  heldReturn : Bool := false
  deriving DecidableEq, Repr

namespace LineState

def line (s : LineState) : String := String.ofList s.unfinished.reverse

def fresh (c : Char) : LineState :=
  if c = '\r' then { heldReturn := true } else { unfinished := [c] }

def step (s : LineState) (c : Char) : LineState × Option String :=
  if s.heldReturn then
    (if c = '\n' then {} else fresh c, some s.line)
  else if c = '\n' then ({}, some s.line)
  else if c = '\r' then ({ s with heldReturn := true }, none)
  else ({ s with unfinished := c :: s.unfinished }, none)

def feedChar (sofar : LineState × Array String) (c : Char) : LineState × Array String :=
  match sofar.1.step c with
  | (s, some line) => (s, sofar.2.push line)
  | (s, none) => (s, sofar.2)

def feed (s : LineState) (text : List Char) : LineState × Array String :=
  text.foldl feedChar (s, #[])

theorem feedChar_append (s : LineState) (lines : Array String) (c : Char) :
    feedChar (s, lines) c = ((feedChar (s, #[]) c).1, lines ++ (feedChar (s, #[]) c).2) := by
  simp only [feedChar]
  split <;> simp

theorem foldl_feedChar (s : LineState) (lines : Array String) (text : List Char) :
    text.foldl feedChar (s, lines) = ((s.feed text).1, lines ++ (s.feed text).2) := by
  induction text generalizing s lines with
  | nil => simp [feed]
  | cons c rest ih =>
    rw [feed, List.foldl_cons, List.foldl_cons, feedChar_append, ih, ih (feedChar (s, #[]) c).1]
    simp

/-- The lines do not depend on where the text is cut. -/
theorem feed_append (s : LineState) (first second : List Char) :
    s.feed (first ++ second) =
      (((s.feed first).1.feed second).1, (s.feed first).2 ++ ((s.feed first).1.feed second).2) := by
  rw [feed, List.foldl_append, ← feed, foldl_feedChar]

/-- What is left at the end of the text: a line that no break has ended. -/
def rest (s : LineState) : Array String :=
  if s.heldReturn || !s.unfinished.isEmpty then #[s.line] else #[]

end LineState

/-- A splitter between two chunks, for any sort of decoder. -/
structure Splitter (δ : Type) where
  decoder : δ
  state : LineState := {}
  deriving DecidableEq, Repr

abbrev StepAnswer := Except DecodeError (Array String)

namespace Splitter

variable {δ : Type} [StreamDecoder δ]

def feed (s : Splitter δ) (bytes : List UInt8) : Splitter δ × StepAnswer :=
  match StreamDecoder.feed s.decoder bytes with
  | (decoder, .ok text) =>
    let (state, lines) := s.state.feed text
    ({ decoder, state }, .ok lines)
  | (decoder, .error cause) => ({ s with decoder }, .error cause)

def flush (s : Splitter δ) : Splitter δ × StepAnswer :=
  match StreamDecoder.finish s.decoder with
  | (decoder, .ok text) =>
    let (state, lines) := s.state.feed text
    ({ decoder }, .ok (lines ++ state.rest))
  | (decoder, .error cause) => ({ s with decoder }, .error cause)

end Splitter

end Overseer.Lines
