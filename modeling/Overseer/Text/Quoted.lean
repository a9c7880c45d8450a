import Overseer.Text.Hex
import Overseer.Text.Printable

/-!
# Quoted text

A text between quotation marks on one line, with every character that cannot be shown as itself
written as an escape. The marks are single unless the text holds single marks and no double ones.
-/

namespace Overseer.Text

def quoteChar (mark c : Char) : List Char :=
  if c = mark ∨ c = '\\' then ['\\', c]
  else if c = '\t' then ['\\', 't']
  else if c = '\n' then ['\\', 'n']
  else if c = '\r' then ['\\', 'r']
  else if isPrintable c then [c]
  else if c.toNat ≤ 0xff then '\\' :: 'x' :: hexDigits 2 c.toNat
  else if c.toNat ≤ 0xffff then '\\' :: 'u' :: hexDigits 4 c.toNat
  else '\\' :: 'U' :: hexDigits 8 c.toNat

def quotationMark (s : List Char) : Char :=
  if s.contains '\'' && !s.contains '"' then '"' else '\''

def quoted (s : String) : String :=
  let cs := s.toList
  let mark := quotationMark cs
  String.ofList (mark :: (cs.flatMap (quoteChar mark) ++ [mark]))

def bracketed (xs : List Int) : String :=
  "[" ++ ", ".intercalate (xs.map toString) ++ "]"

end Overseer.Text
