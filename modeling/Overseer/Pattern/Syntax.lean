import Overseer.Text.Blank
import Overseer.Text.Digit
import Overseer.Text.LetterCase
import Overseer.Text.Word

/-!
# Patterns

The terms of the pattern language, and how long the texts are that a term can match. Code points
are numbers here, since a pattern can name one that no text contains.
-/

namespace Overseer.Pattern

open Overseer.Text

inductive Category where
  | digit
  | space
  | word
  deriving DecidableEq, Repr

inductive SetItem where
  | single (code : Nat)
  | range (low high : Nat)
  | category (kind : Category) (negated ascii : Bool)
  deriving DecidableEq, Repr

inductive Anchor where
  | textStart
  | textEnd
  | lineStart
  | lineEnd
  /-- The end of the text, or before a newline that ends it. -/
  | lastLineEnd
  | wordBoundary (negated ascii : Bool)
  deriving DecidableEq, Repr

inductive Greed where
  | greedy
  | lazy
  /-- As many as possible, and no fewer later. -/
  | possessive
  deriving DecidableEq, Repr

/-- A term. Groups are numbered from one. -/
inductive Term where
  | empty
  | char (ignoreCase : Bool) (code : Nat)
  | any (newlines : Bool)
  | set (ignoreCase negated : Bool) (items : List SetItem)
  | anchor (anchor : Anchor)
  | group (index : Nat) (body : Term)
  | backref (ignoreCase : Bool) (index : Nat)
  | seq (first second : Term)
  | alt (left right : Term)
  | rep (greed : Greed) (least : Nat) (most : Option Nat) (body : Term)
  | ahead (negated : Bool) (body : Term)
  /-- Matches if `body` does from `width` characters before. -/
  | behind (negated : Bool) (width : Nat) (body : Term)
  | atomic (body : Term)
  /-- One of two, as the group has taken part so far or has not. -/
  | cond (index : Nat) (yes no : Term)
  deriving DecidableEq, Repr

/-- The least and the greatest length of a matched text; no greatest one means unbounded. -/
structure Width where
  least : Nat
  most : Option Nat
  deriving DecidableEq, Repr

namespace Width

def exactly (n : Nat) : Width := ⟨n, some n⟩

def add (a b : Width) : Width :=
  ⟨a.least + b.least, do return (← a.most) + (← b.most)⟩

def either (a b : Width) : Width :=
  ⟨min a.least b.least, do return max (← a.most) (← b.most)⟩

def times (a : Width) (least : Nat) (most : Option Nat) : Width :=
  ⟨a.least * least, if a.most = some 0 then some 0 else do return (← a.most) * (← most)⟩

end Width

def Term.width (groups : Nat → Width) : Term → Width
  | .empty | .anchor _ | .ahead _ _ | .behind _ _ _ => .exactly 0
  | .char _ _ | .any _ | .set _ _ _ => .exactly 1
  | .group _ body | .atomic body => body.width groups
  | .backref _ index => groups index
  | .seq a b => (a.width groups).add (b.width groups)
  | .alt a b | .cond _ a b => (a.width groups).either (b.width groups)
  | .rep _ least most body => (body.width groups).times least most

def Category.holds (kind : Category) (ascii : Bool) (c : Char) : Bool :=
  if ascii then
    match kind with
    | .digit => c.isDigit
    | .space => c == ' ' || (0x9 ≤ c.toNat && c.toNat ≤ 0xd)
    | .word => c.isAlphanum || c == '_'
  else
    match kind with
    | .digit => isDecimalDigit c
    | .space => isBlank c
    | .word => isWordChar c

def SetItem.holds (item : SetItem) (c : Char) : Bool :=
  match item with
  | .single code => c.toNat == code
  | .range low high => low ≤ c.toNat && c.toNat ≤ high
  | .category kind negated ascii => kind.holds ascii c != negated

/-- Whether a character is one that an item names, up to case. A named class is asked about the
lower case. -/
def SetItem.holdsUpToCase (item : SetItem) (c : Char) : Bool :=
  match item with
  | .category kind negated ascii => kind.holds ascii (toLower c) != negated
  | item => (caseVariants c).any fun variant => item.holds variant

def setHolds (ignoreCase negated : Bool) (items : List SetItem) (c : Char) : Bool :=
  items.any (fun item => if ignoreCase then item.holdsUpToCase c else item.holds c) != negated

def charHolds (ignoreCase : Bool) (code : Nat) (c : Char) : Bool :=
  c.toNat == code ||
    (ignoreCase && (Char.ofNat code).toNat == code && sameUpToCase (Char.ofNat code) c)

end Overseer.Pattern
