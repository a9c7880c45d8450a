import Overseer.Lines.Splitter

/-!
# Splitting a stream in steps

What a splitter gives out when it is fed and flushed in some order. A step whose bytes cannot be
decoded gives the cause, and the next step is taken all the same; only a handler that does not exist
stops the stream.
-/

namespace Overseer.Lines

open Overseer.Octets

inductive StreamStep where
  | feed (bytes : List UInt8)
  | flush
  deriving DecidableEq, Repr

namespace Splitter

def named (encoding handler : String) : Except DecodeError (Splitter SignedDecoder) :=
  (SignedDecoder.named encoding handler).map fun decoder => { decoder }

variable {δ : Type} [StreamDecoder δ]

def take (s : Splitter δ) : StreamStep → Splitter δ × StepAnswer
  | .feed bytes => s.feed bytes
  | .flush => s.flush

/-- The error that stops a stream, if a step has run into it. -/
def stopper? : StepAnswer → Option DecodeError
  | .error (.undefinedHandler name) => some (.undefinedHandler name)
  | _ => none

def run (s : Splitter δ) : List StreamStep → Except DecodeError (List StepAnswer)
  | [] => .ok []
  | step :: rest =>
    let (s, answer) := s.take step
    match stopper? answer with
    | some cause => .error cause
    | none => (run s rest).map (answer :: ·)

end Splitter

end Overseer.Lines
