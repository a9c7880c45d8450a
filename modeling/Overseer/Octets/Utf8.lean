import Overseer.Octets.Piece

/-!
# UTF-8, one byte at a time

The bytes of an unfinished character are pending. A byte that continues them is added; any other
byte makes the pending bytes, the longest part that could have been a character, one malformed
piece, and is then looked at afresh. The first two bytes of an encoded surrogate are no part of any
character, but this too is seen only when the byte after them comes.
-/

namespace Overseer.Octets.Utf8

def following? (b : UInt8) : Option Nat :=
  if 0xc2 ≤ b ∧ b ≤ 0xdf then some 1
  else if 0xe0 ≤ b ∧ b ≤ 0xef then some 2
  else if 0xf0 ≤ b ∧ b ≤ 0xf4 then some 3
  else none

/-- The least and the greatest byte that may follow the pending bytes. -/
def nextBounds (pending : List UInt8) : UInt8 × UInt8 :=
  match pending with
  | [0xe0] => (0xa0, 0xbf)
  | [0xed] => (0x80, 0x9f)
  | [0xf0] => (0x90, 0xbf)
  | [0xf4] => (0x80, 0x8f)
  | _ => (0x80, 0xbf)

def continues (pending : List UInt8) (b : UInt8) : Bool :=
  let (low, high) := nextBounds pending
  low ≤ b && b ≤ high

def codePoint : List UInt8 → Nat
  | [a] => a.toNat
  | [a, b] => a.toNat % 0x20 * 0x40 + b.toNat % 0x40
  | [a, b, c] => a.toNat % 0x10 * 0x1000 + b.toNat % 0x40 * 0x40 + c.toNat % 0x40
  | [a, b, c, d] =>
    a.toNat % 0x8 * 0x40000 + b.toNat % 0x40 * 0x1000 + c.toNat % 0x40 * 0x40 + d.toNat % 0x40
  | _ => 0xfffd

def complete (bytes : List UInt8) : Piece := .char bytes (Char.ofNat (codePoint bytes))

def start (b : UInt8) : List Piece × List UInt8 :=
  if b < 0x80 then ([complete [b]], [])
  else if (following? b).isSome then ([], [b])
  else ([.malformed [b] .invalidStart], [])

def beginsSurrogate (first second : UInt8) : Bool :=
  first == 0xed && 0xa0 ≤ second && second ≤ 0xbf

def abandon (pending : List UInt8) (fault : Fault) : List Piece :=
  match pending with
  | [] => []
  | [first, second] =>
    if beginsSurrogate first second then
      [.malformed [first] .invalidContinuation, .malformed [second] .invalidStart]
    else [.malformed [first, second] fault]
  | pending => [.malformed pending fault]

def breakOff (pending : List UInt8) (b : UInt8) : List Piece × List UInt8 :=
  let (pieces, rest) := start b
  (abandon pending .invalidContinuation ++ pieces, rest)

/-- One byte after the pending ones: the pieces it completes and the bytes pending after it. -/
def step (pending : List UInt8) (b : UInt8) : List Piece × List UInt8 :=
  match pending with
  | [] => start b
  | [first] =>
    if beginsSurrogate first b then ([], [first, b])
    else if continues [first] b then
      if following? first = some 1 then ([complete [first, b]], []) else ([], [first, b])
    else breakOff [first] b
  | first :: second :: rest =>
    if beginsSurrogate first second then breakOff pending b
    else if continues pending b then
      let bytes := first :: second :: rest ++ [b]
      if some bytes.length = (following? first).map (· + 1) then ([complete bytes], [])
      else ([], bytes)
    else breakOff pending b

end Overseer.Octets.Utf8
