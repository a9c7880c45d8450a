import Overseer.Number.Binary64

/-!
# The shortest decimal of a number

The text of a number has the fewest digits that read back as the number, and of those the nearest.
Digits are tried from one to seventeen; the exact decimal, which always reads back, closes the
search. Positional notation is used from `0.0001` up to below `10 ^ 16`.
-/

namespace Overseer.Number

structure DecimalForm where
  digits : Nat
  exponent : Int
  deriving DecidableEq, Repr

def scaleTen (m : Nat) (e : Int) (scale : Int) : Nat × Nat :=
  (m * Nat.pow 2 e.toNat * Nat.pow 10 scale.toNat,
    Nat.pow 2 (-e).toNat * Nat.pow 10 (-scale).toNat)

def floorLog10 (m : Nat) (e : Int) : Int :=
  let estimate := ((m.log2 : Int) + e) * 30103 / 100000
  let reaches (p : Int) : Bool :=
    let (n, d) := scaleTen m e (-p)
    d ≤ n
  if reaches (estimate + 1) then estimate + 1
  else if reaches estimate then estimate
  else estimate - 1

/-- The two neighbours of `m * 2 ^ e` among the decimals with the given exponent, the nearer one
first; a tie goes to the even one. -/
def neighbours (m : Nat) (e : Int) (exponent : Int) : List DecimalForm :=
  let (n, d) := scaleTen m e (-exponent)
  let low := n / d
  let near := roundDiv n d
  let far := if near = low then low + 1 else low
  [⟨near, exponent⟩, ⟨far, exponent⟩]

def exactDecimal (m : Nat) (e : Int) : DecimalForm :=
  if 0 ≤ e then ⟨m * Nat.pow 2 e.toNat, 0⟩ else ⟨m * Nat.pow 5 (-e).toNat, e⟩

def DecimalForm.readsBack (m : Nat) (e : Int) (d : DecimalForm) : Bool :=
  decide (Binary64.ofDecimal false d.digits d.exponent = .finite false m e)

/-- The shortest decimal that reads back as the positive number `m * 2 ^ e`. -/
def shortestDecimal (m : Nat) (e : Int) : DecimalForm :=
  let p := floorLog10 m e
  let candidates := (List.range 17).flatMap fun (n : Nat) => neighbours m e (p - (n : Int))
  (candidates.find? (DecimalForm.readsBack m e)).getD (exactDecimal m e)

/-- A number without its trailing zeros, and how many were taken off, at most `fuel`. -/
def stripZeros : (fuel : Nat) → Nat → Nat × Nat
  | 0, n => (n, 0)
  | fuel + 1, n =>
    if n ≠ 0 ∧ n % 10 = 0 then
      let (m, k) := stripZeros fuel (n / 10)
      (m, k + 1)
    else (n, 0)

def exponentText (e : Int) : List Char :=
  let ds := Nat.toDigits 10 e.natAbs
  'e' :: (if e < 0 then '-' else '+') :: (List.replicate (2 - ds.length) '0' ++ ds)

/-- A decimal in positional notation with a point, or with an exponent if it is very large or
very small. -/
def DecimalForm.text (d : DecimalForm) : List Char :=
  let (n, zeros) := stripZeros (Binary64.decimalLength d.digits) d.digits
  let ds := Nat.toDigits 10 n
  let point : Int := ds.length + zeros + d.exponent
  if -4 < point ∧ point ≤ 16 then
    if point ≤ 0 then '0' :: '.' :: (List.replicate (-point).toNat '0' ++ ds)
    else
      let whole := point.toNat
      if ds.length ≤ whole then ds ++ List.replicate (whole - ds.length) '0' ++ ['.', '0']
      else ds.take whole ++ '.' :: ds.drop whole
  else
    match ds with
    | [] => []
    | [c] => c :: exponentText (point - 1)
    | c :: rest => c :: '.' :: (rest ++ exponentText (point - 1))

def Binary64.text : Binary64 → String
  | .nan => "nan"
  | .infinite negative => if negative then "-inf" else "inf"
  | .finite negative m e =>
    let body := if m = 0 then ['0', '.', '0'] else (shortestDecimal m e).text
    String.ofList (if negative then '-' :: body else body)

end Overseer.Number
