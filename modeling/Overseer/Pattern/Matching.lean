import Overseer.Pattern.Reader

/-!
# Matching

A term is run on a text from a position, and what is to match after it is a continuation: the term
tries its ways in order and gives the first from which the continuation succeeds. Everything but an
unbounded repetition is by recursion on the term. A repetition is by recursion on a bound: after
the least number of times, a round that takes no character is the last, so a text of `n` characters
allows no more than `n + 1` further rounds.
-/

namespace Overseer.Pattern

open Overseer.Text

abbrev Span := Nat × Nat

structure Cursor where
  pos : Nat
  groups : Array (Option Span)
  deriving DecidableEq, Repr

abbrev Continuation := Cursor → Option Cursor

/-- A way to match: from a cursor, the first success of the continuation. -/
abbrev Matcher := Cursor → Continuation → Option Cursor

def isWordAt (ascii : Bool) (text : Array Char) (pos : Nat) : Bool :=
  match text[pos]? with
  | some c => Category.word.holds ascii c
  | none => false

/-- Whether a place is at a position. An empty text has neither word boundaries nor their
opposite. -/
def Anchor.holds (text : Array Char) (pos : Nat) : Anchor → Bool
  | .textStart => pos == 0
  | .textEnd => pos == text.size
  | .lineStart => pos == 0 || text[pos - 1]? == some '\n'
  | .lineEnd => pos == text.size || text[pos]? == some '\n'
  | .lastLineEnd => pos == text.size || (pos + 1 == text.size && text[pos]? == some '\n')
  | .wordBoundary negated ascii =>
    let before := pos != 0 && isWordAt ascii text (pos - 1)
    text.size != 0 && (before != isWordAt ascii text pos) != negated

def oneChar (text : Array Char) (holds : Char → Bool) : Matcher := fun c k =>
  match text[c.pos]? with
  | some x => if holds x then k { c with pos := c.pos + 1 } else none
  | none => none

def sameAgain (text : Array Char) (ignoreCase : Bool) (index : Nat) : Matcher := fun c k =>
  match c.groups[index]? with
  | some (some (start, stop)) =>
    let same (i : Nat) : Bool :=
      match text[start + i]?, text[c.pos + i]? with
      | some a, some b => a == b || (ignoreCase && toLower a == toLower b)
      | _, _ => false
    if (List.range (stop - start)).all same then k { c with pos := c.pos + (stop - start) }
    else none
  | _ => none

/-- As many rounds as the continuation allows. `last` is where the last optional round began. -/
def greedyRounds (round : Matcher) (least : Nat) (most : Option Nat) (k : Continuation) :
    (fuel count : Nat) → (last : Option Nat) → Continuation
  | 0, _, _, c => k c
  | fuel + 1, count, last, c =>
    if count < least then round c (greedyRounds round least most k fuel (count + 1) last)
    else if (most.all (count < ·)) && last != some c.pos then
      match round c (greedyRounds round least most k fuel (count + 1) (some c.pos)) with
      | some found => some found
      | none => k c
    else k c

def lazyRounds (round : Matcher) (least : Nat) (most : Option Nat) (k : Continuation) :
    (fuel count : Nat) → (last : Option Nat) → Continuation
  | 0, _, _, c => k c
  | fuel + 1, count, last, c =>
    if count < least then round c (lazyRounds round least most k fuel (count + 1) last)
    else
      match k c with
      | some found => some found
      | none =>
        if (most.all (count < ·)) && last != some c.pos then
          round c (lazyRounds round least most k fuel (count + 1) (some c.pos))
        else none

/-- A number of rounds that no repetition exceeds. -/
def roundBound (text : Array Char) (least : Nat) : Nat := least + text.size + 2

def Term.run (text : Array Char) : Term → Matcher
  | .empty => fun c k => k c
  | .char ignoreCase code => oneChar text (charHolds ignoreCase code)
  | .any newlines => oneChar text fun x => newlines || x != '\n'
  | .set ignoreCase negated items => oneChar text (setHolds ignoreCase negated items)
  | .anchor place => fun c k => if place.holds text c.pos then k c else none
  | .group index body => fun c k =>
    body.run text c fun d =>
      k { d with groups := d.groups.setIfInBounds index (some (c.pos, d.pos)) }
  | .backref ignoreCase index => sameAgain text ignoreCase index
  | .seq first second => fun c k => first.run text c fun d => second.run text d k
  | .alt left right => fun c k =>
    match left.run text c k with
    | some found => some found
    | none => right.run text c k
  | .rep .greedy least most body => fun c k =>
    greedyRounds (body.run text) least most k (roundBound text least) 0 none c
  | .rep .lazy least most body => fun c k =>
    lazyRounds (body.run text) least most k (roundBound text least) 0 none c
  | .rep .possessive least most body => fun c k =>
    (greedyRounds (body.run text) least most some (roundBound text least) 0 none c).bind k
  | .ahead negated body => fun c k =>
    match body.run text c some with
    | some found => if negated then none else k { found with pos := c.pos }
    | none => if negated then k c else none
  | .behind negated width body => fun c k =>
    let found :=
      if width ≤ c.pos then body.run text { c with pos := c.pos - width } some else none
    match found with
    | some found => if negated then none else k { found with pos := c.pos }
    | none => if negated then k c else none
  | .atomic body => fun c k => (body.run text c some).bind k
  | .cond index yes no => fun c k =>
    if (c.groups[index]?.join).isSome then yes.run text c k else no.run text c k

/-- A match: the spans of the groups, the whole match being group zero. -/
structure Match where
  text : Array Char
  span : Span
  groups : Array (Option Span)
  names : List (String × Nat)
  deriving Repr

def Match.slice (m : Match) (span : Span) : String :=
  String.ofList (m.text.toList.drop span.1 |>.take (span.2 - span.1))

def Match.whole (m : Match) : String := m.slice m.span

def Match.group? (m : Match) (index : Nat) : Option String :=
  (m.groups[index]?.join).map m.slice

def Match.allGroups (m : Match) : List (Option String) :=
  (List.range (m.groups.size - 1)).map fun i => m.group? (i + 1)

def Match.namedGroups (m : Match) : List (String × Option String) :=
  m.names.map fun (name, index) => (name, m.group? index)

namespace Compiled

def matchAt (p : Compiled) (text : Array Char) (start : Nat) : Option Match :=
  (p.term.run text ⟨start, Array.replicate (p.groups + 1) none⟩ some).map fun c =>
    { text, span := (start, c.pos), groups := c.groups, names := p.names }

def search (p : Compiled) (line : String) : Option Match :=
  let text := line.toList.toArray
  (List.range (text.size + 1)).findSome? (p.matchAt text)

end Compiled

end Overseer.Pattern
