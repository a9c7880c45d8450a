import Overseer.Octets.Utf8
import Overseer.Text.Hex

/-!
# Incremental decoding

A decoder turns chunks of bytes into text. It keeps the bytes of an unfinished character, so that
where a stream is cut does not matter (`Encoding.scan_append`). Malformed bytes are handled as the
caller chose; with the strict handler a chunk that holds some is refused as a whole and changes
nothing. Three encodings are supported; the decoder of any other codec is a `StreamDecoder` of its
own, as `SignedDecoder` is.
-/

namespace Overseer.Octets

open Overseer.Text

inductive Encoding where
  | utf8
  | ascii
  | latin1
  deriving DecidableEq, Repr

inductive Handler where
  | strict
  | ignore
  /-- One replacement character for each malformed piece. -/
  | replace
  /-- An escape for each byte. -/
  | escape
  /-- A handler nobody has defined, which shows only when it is needed. -/
  | undefined (name : String)
  deriving DecidableEq, Repr

inductive DecodeError where
  | malformed (encoding : Encoding) (bytes : List UInt8) (position : Nat) (fault : Fault)
  | undefinedHandler (name : String)
  | unknownEncoding (name : String)
  deriving DecidableEq, Repr

def Encoding.name : Encoding → String
  | .utf8 => "utf-8"
  | .ascii => "ascii"
  | .latin1 => "latin-1"

def DecodeError.message : DecodeError → String
  | .malformed encoding bytes position fault =>
    let codec := "'" ++ encoding.name ++ "' codec can't decode "
    match bytes with
    | [b] =>
      let digits := String.ofList (hexDigits 2 b.toNat)
      s!"{codec}byte 0x{digits} in position {position}: {fault.message}"
    | _ =>
      let last := position + bytes.length - 1
      s!"{codec}bytes in position {position}-{last}: {fault.message}"
  | .undefinedHandler name => "unknown error handler name '" ++ name ++ "'"
  | .unknownEncoding name => "unknown encoding: " ++ name

/-- One more character of a name. All that stands between letters, digits and dots is one sort of
separator, which counts only between two of them. -/
def plainChar (sofar : List Char × Bool) (c : Char) : List Char × Bool :=
  let (plain, separated) := sofar
  if c.isAlphanum || c == '.' then
    (plain ++ (if separated && !plain.isEmpty then ['_'] else []) ++ [c.toLower], false)
  else (plain, true)

def plainName (s : String) : String := String.ofList (s.toList.foldl plainChar ([], false)).1

def Encoding.names : Encoding → List String
  | .utf8 => ["utf_8", "utf8", "u8", "utf", "utf8_ucs2", "utf8_ucs4", "cp65001"]
  | .ascii =>
    ["ascii", "us_ascii", "us", "646", "iso646_us", "ansi_x3.4_1968", "ansi_x3_4_1968",
      "ansi_x3.4_1986", "iso_646.irv_1991", "iso_ir_6", "cp367", "ibm367", "csascii"]
  | .latin1 =>
    ["latin_1", "latin1", "latin", "l1", "iso_8859_1", "iso8859_1", "iso8859", "8859",
      "iso_8859_1_1987", "iso_ir_100", "cp819", "ibm819", "csisolatin1"]

def Encoding.named (name : String) : Except DecodeError Encoding :=
  match [Encoding.utf8, .ascii, .latin1].find? (·.names.contains (plainName name)) with
  | some encoding => .ok encoding
  | none => .error (.unknownEncoding name)

def Handler.named (name : String) : Handler :=
  match name with
  | "strict" => .strict
  | "ignore" => .ignore
  | "replace" => .replace
  | "backslashreplace" => .escape
  | other => .undefined other

/-- One byte after the pending ones. Only UTF-8 ever has bytes pending. -/
def Encoding.step (encoding : Encoding) (pending : List UInt8) (b : UInt8) :
    List Piece × List UInt8 :=
  match encoding with
  | .utf8 => Utf8.step pending b
  | .ascii =>
    if b < 0x80 then ([.char [b] (Char.ofNat b.toNat)], [])
    else ([.malformed [b] .outOfRange], [])
  | .latin1 => ([.char [b] (Char.ofNat b.toNat)], [])

def Encoding.scanByte (encoding : Encoding) (sofar : Array Piece × List UInt8) (b : UInt8) :
    Array Piece × List UInt8 :=
  let (pieces, rest) := encoding.step sofar.2 b
  (sofar.1 ++ pieces, rest)

/-- The pieces that some bytes complete after the pending ones, and what is pending then. -/
def Encoding.scan (encoding : Encoding) (pending bytes : List UInt8) : Array Piece × List UInt8 :=
  bytes.foldl encoding.scanByte (#[], pending)

/-- The pieces do not depend on where the stream is cut. -/
theorem Encoding.scan_append (encoding : Encoding) (pending first second : List UInt8) :
    encoding.scan pending (first ++ second) =
      ((encoding.scan pending first).1 ++
          (encoding.scan (encoding.scan pending first).2 second).1,
        (encoding.scan (encoding.scan pending first).2 second).2) := by
  have split (done : Array Piece) (pending : List UInt8) (bytes : List UInt8) :
      bytes.foldl (encoding.scanByte) (done, pending) =
        (done ++ (encoding.scan pending bytes).1, (encoding.scan pending bytes).2) := by
    induction bytes generalizing done pending with
    | nil => simp [scan]
    | cons b rest ih =>
      simp only [scan, List.foldl_cons, scanByte]
      rw [ih, ih (#[] ++ _)]
      refine Prod.ext (Array.ext' ?_) rfl
      simp
  rw [scan, List.foldl_append, ← scan, split]

def atEnd (pending : List UInt8) : Array Piece := (Utf8.abandon pending .unexpectedEnd).toArray

def Handler.resolve (handler : Handler) (encoding : Encoding) (position : Nat)
    (bytes : List UInt8) (fault : Fault) : Except DecodeError (List Char) :=
  match handler with
  | .strict => .error (.malformed encoding bytes position fault)
  | .ignore => .ok []
  | .replace => .ok ['\ufffd']
  | .escape => .ok (bytes.flatMap fun b => '\\' :: 'x' :: hexDigits 2 b.toNat)
  | .undefined name => .error (.undefinedHandler name)

def Handler.extend (handler : Handler) (encoding : Encoding) (sofar : Array Char × Nat)
    (piece : Piece) : Except DecodeError (Array Char × Nat) :=
  let (text, position) := sofar
  match piece with
  | .char bytes c => .ok (text.push c, position + bytes.length)
  | .malformed bytes fault => do
    let cs ← handler.resolve encoding position bytes fault
    return (text ++ cs, position + bytes.length)

def Handler.text (handler : Handler) (encoding : Encoding) (pieces : Array Piece) :
    Except DecodeError (List Char) := do
  let (text, _) ← pieces.foldlM (handler.extend encoding) (#[], 0)
  return text.toList

/-- What decodes a stream chunk by chunk. Each call also gives the decoder that it leaves, whether
there is a text or not. -/
class StreamDecoder (δ : Type) where
  feed : δ → List UInt8 → δ × Except DecodeError (List Char)
  finish : δ → δ × Except DecodeError (List Char)

structure Decoder where
  encoding : Encoding := .utf8
  handler : Handler := .replace
  pending : List UInt8 := []
  deriving DecidableEq, Repr

namespace Decoder

/-- The text of some pieces. Only when there is one, other bytes are pending after it. -/
def take (d : Decoder) (pieces : Array Piece) (pending : List UInt8) :
    Decoder × Except DecodeError (List Char) :=
  match d.handler.text d.encoding pieces with
  | .ok text => ({ d with pending }, .ok text)
  | .error cause => (d, .error cause)

def feed (d : Decoder) (bytes : List UInt8) : Decoder × Except DecodeError (List Char) :=
  let scanned := d.encoding.scan d.pending bytes
  d.take scanned.1 scanned.2

def finish (d : Decoder) : Decoder × Except DecodeError (List Char) := d.take (atEnd d.pending) []

instance : StreamDecoder Decoder := ⟨feed, finish⟩

end Decoder

/-- A decoder of UTF-8 that passes over one byte order mark at the very beginning. -/
inductive SignedDecoder where
  /-- Nothing has been decoded: all that has come may be the beginning of the mark. -/
  | unsigned (handler : Handler) (seen : List UInt8)
  | signed (decoder : Decoder)
  deriving DecidableEq, Repr

namespace SignedDecoder

def mark : List UInt8 := [0xEF, 0xBB, 0xBF]

/-- With the first bytes that cannot be less than the mark it is settled whether the mark is there,
also when they cannot be decoded. The end of the stream settles nothing. -/
def feed (d : SignedDecoder) (bytes : List UInt8) :
    SignedDecoder × Except DecodeError (List Char) :=
  match d with
  | .unsigned handler seen =>
    let all := seen ++ bytes
    if all.length < mark.length ∧ all <+: mark then (.unsigned handler all, .ok [])
    else
      let body := if mark <+: all then all.drop mark.length else all
      match ({ handler } : Decoder).feed body with
      | (decoder, .ok text) => (.signed decoder, .ok text)
      | (decoder, .error cause) => (.signed { decoder with pending := seen }, .error cause)
  | .signed decoder =>
    let (decoder, text) := decoder.feed bytes
    (.signed decoder, text)

def finish (d : SignedDecoder) : SignedDecoder × Except DecodeError (List Char) :=
  match d with
  | .unsigned _ _ => (d, .ok [])
  | .signed decoder =>
    let (decoder, text) := decoder.finish
    (.signed decoder, text)

instance : StreamDecoder SignedDecoder := ⟨feed, finish⟩

def named (encoding handler : String) : Except DecodeError SignedDecoder :=
  if plainName encoding = "utf_8_sig" then .ok (.unsigned (.named handler) [])
  else (Encoding.named encoding).map fun encoding => .signed { encoding, handler := .named handler }

end SignedDecoder

end Overseer.Octets
