import Overseer.Number.Seconds

/-!
# The clock

Time is counted in whole nanoseconds from the start of a run. A limit of so many seconds becomes a
deadline; one that is infinite, or not a number, becomes none.
-/

namespace Overseer

open Number

/-- A moment, in nanoseconds from the start. -/
abbrev Instant := Nat

namespace Instant

def perMilli : Nat := 1000000

def perSecond : Nat := 1000000000

def ofMillis (ms : Nat) : Instant := ms * perMilli

def toMillis (t : Instant) : Nat := roundDiv t perMilli

def earlier : Option Instant → Option Instant → Option Instant
  | some a, some b => some (min a b)
  | some a, none => some a
  | none, b => b

def reached (now : Instant) (moment : Option Instant) : Bool := moment.any (· ≤ now)

end Instant

/-- How long a limit is, if it ever runs out. A limit that is not positive has run out at once; a
positive one takes at least one tick of the clock. -/
def Number.Seconds.span? : Seconds → Option Nat
  | .whole n => some (n.toNat * Instant.perSecond)
  | .real .nan => none
  | .real (.infinite negative) => if negative then some 0 else none
  | .real (.finite negative m e) =>
    if negative ∨ m = 0 then some 0
    else
      let (n, d) := scaleRatio (m * Instant.perSecond) 1 e
      some (max 1 (roundDiv n d))

def Number.Seconds.deadline (limit : Seconds) (now : Instant) : Option Instant :=
  limit.span?.map (now + ·)

end Overseer
