/-!
# Pieces of a decoded stream

A decoder cuts a byte stream into pieces: characters, and byte sequences that no character is
written as. Each piece keeps the bytes it came from, so nothing of the stream is lost.
-/

namespace Overseer.Octets

inductive Fault where
  | invalidStart
  | invalidContinuation
  | unexpectedEnd
  | outOfRange
  deriving DecidableEq, Repr

def Fault.message : Fault → String
  | .invalidStart => "invalid start byte"
  | .invalidContinuation => "invalid continuation byte"
  | .unexpectedEnd => "unexpected end of data"
  | .outOfRange => "ordinal not in range(128)"

/-- A stretch of the stream: a character, or bytes that are none. -/
inductive Piece where
  | char (bytes : List UInt8) (c : Char)
  | malformed (bytes : List UInt8) (fault : Fault)
  deriving DecidableEq, Repr

def Piece.bytes : Piece → List UInt8
  | .char bytes _ => bytes
  | .malformed bytes _ => bytes

end Overseer.Octets
