import Overseer.Number.Decimal
import Overseer.Number.Shortest

/-!
# Amounts of seconds

A limit on a wait is a whole number of seconds or a binary64 number of them; the two are written
differently and compared as numbers. Not-a-number is neither below nor above anything.
-/

namespace Overseer.Number

inductive Seconds where
  | whole (n : Int)
  | real (x : Binary64)
  deriving DecidableEq, Repr

inductive Extent where
  | belowAll
  | at (q : Rat)
  | aboveAll
  deriving DecidableEq

def Extent.lt : Extent → Extent → Bool
  | .belowAll, .belowAll => false
  | .belowAll, _ => true
  | .at _, .belowAll => false
  | .at p, .at q => p < q
  | .at _, .aboveAll => true
  | .aboveAll, _ => false

def Binary64.extent? : Binary64 → Option Extent
  | .nan => none
  | .infinite negative => some (if negative then .belowAll else .aboveAll)
  | .finite negative m e =>
    let q := Binary64.magnitude m e
    some (.at (if negative then -q else q))

namespace Seconds

def extent? : Seconds → Option Extent
  | .whole n => some (.at n)
  | .real x => x.extent?

def lt (a b : Seconds) : Bool :=
  match a.extent?, b.extent? with
  | some p, some q => p.lt q
  | _, _ => false

def same (a b : Seconds) : Bool :=
  match a.extent?, b.extent? with
  | some p, some q => p == q
  | _, _ => false

def least (a b : Seconds) : Seconds := if b.lt a then b else a

def greatest (a b : Seconds) : Seconds := if a.lt b then b else a

/-- An amount held between two bounds; the lower bound wins over the upper one, and over
not-a-number. -/
def clamp (minimum maximum x : Seconds) : Seconds := greatest minimum (least x maximum)

def text : Seconds → String
  | .whole n => toString n
  | .real x => x.text

/-- An amount from its written form: digits alone are a whole number. -/
def read? (s : String) : Option Seconds :=
  let (negative, ds) := match s.toList with
    | '-' :: rest => (true, rest)
    | cs => (false, cs)
  if ds ≠ [] ∧ ds.all Char.isDigit then
    some (.whole (if negative then -(natOfDigits ds : Int) else natOfDigits ds))
  else (Binary64.read? s).map .real

def ofDecimal (digits : Nat) (exponent : Int) : Seconds := .real (.ofDecimal false digits exponent)

end Seconds

end Overseer.Number
