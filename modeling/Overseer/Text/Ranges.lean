/-!
# Ranges of code points

A property of characters is written as a list of ranges of code points, both ends included.
-/

namespace Overseer.Text

def inRanges (ranges : List (Nat × Nat)) (c : Char) : Bool :=
  ranges.any fun r => r.1 ≤ c.toNat && c.toNat ≤ r.2

end Overseer.Text
