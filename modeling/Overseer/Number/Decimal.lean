import Overseer.Number.Binary64
import Overseer.Text.Blank
import Overseer.Text.Digit

/-!
# Reading numbers

The text of a number: blanks around it, a sign, then digits of any script with at most one point
and an exponent, or the words for infinity and not-a-number in any case. Single underscores may
stand between digits.
-/

namespace Overseer.Number

open Overseer.Text

/-- The blanks that may surround a number: ASCII white space and the blanks beyond ASCII. -/
def isMargin (c : Char) : Bool :=
  if c.toNat < 0x80 then c == ' ' || (0x9 ≤ c.toNat && c.toNat ≤ 0xd) else isBlank c

def trimMargins (s : List Char) : List Char :=
  ((s.dropWhile isMargin).reverse.dropWhile isMargin).reverse

def asciiDigit (c : Char) : Char :=
  match digitValue? c with
  | some d => Char.ofNat (0x30 + d)
  | none => c

/-- The text without its underscores, if each of them stands between two digits. -/
def joinDigits? : (previous : Char) → List Char → Option (List Char)
  | previous, [] => if previous = '_' then none else some []
  | previous, c :: rest =>
    if c = '_' then
      if previous.isDigit then joinDigits? c rest else none
    else if previous = '_' ∧ !c.isDigit then none
    else (joinDigits? c rest).map (c :: ·)

def natOfDigits (ds : List Char) : Nat :=
  ds.foldl (fun n c => n * 10 + (c.toNat - 0x30)) 0

def splitSign : List Char → Bool × List Char
  | '-' :: rest => (true, rest)
  | '+' :: rest => (false, rest)
  | s => (false, s)

def exponent? : List Char → Option Int
  | [] => some 0
  | c :: rest =>
    if c = 'e' ∨ c = 'E' then
      let (negative, ds) := splitSign rest
      if ds ≠ [] ∧ ds.all Char.isDigit then
        some (if negative then -(natOfDigits ds : Int) else natOfDigits ds)
      else none
    else none

def unsigned? (negative : Bool) (s : List Char) : Option Binary64 :=
  let whole := s.takeWhile Char.isDigit
  let rest := s.dropWhile Char.isDigit
  let (fraction, rest) := match rest with
    | '.' :: more => (more.takeWhile Char.isDigit, more.dropWhile Char.isDigit)
    | other => ([], other)
  if whole = [] ∧ fraction = [] then none
  else (exponent? rest).map fun e =>
    .ofDecimal negative (natOfDigits (whole ++ fraction)) (e - fraction.length)

def special? (negative : Bool) (s : List Char) : Option Binary64 :=
  match String.ofList (s.map Char.toLower) with
  | "inf" | "infinity" => some (.infinite negative)
  | "nan" => some .nan
  | _ => none

def Binary64.read? (s : String) : Option Binary64 := do
  let cs ← joinDigits? '\x00' (trimMargins (s.toList.map asciiDigit))
  let (negative, rest) := splitSign cs
  special? negative rest <|> unsigned? negative rest

end Overseer.Number
