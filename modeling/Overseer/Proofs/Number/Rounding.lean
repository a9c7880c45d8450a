import Mathlib.Algebra.Order.Field.Power
import Mathlib.Tactic.FieldSimp
import Overseer.Number.Shortest
import Overseer.Proofs.Number.LimitSpans

/-!
# Rounding

Every quotient is rounded to a number with as many digits as its exponent leaves room for
(`Binary64.Canonical`). What it is rounded to depends on its value alone (`ofRatio_congr`), and a
quotient that is such a number already is left as it is (`ofRatio_of_canonical`). The same holds of
decimals, so the shortest decimal of a number always reads back.
-/

namespace Overseer.Number

theorem zpow_eq_div {b : Nat} (hb : b ≠ 0) (e : Int) :
    (b : Rat) ^ e = (Nat.pow b e.toNat : Nat) / (Nat.pow b (-e).toNat : Nat) := by
  have hcast : (b : Rat) ≠ 0 := by exact_mod_cast hb
  rcases Int.le_total 0 e with he | he
  · have hneg : (-e).toNat = 0 := by omega
    have hsplit : e = (e.toNat : Int) := by omega
    rw [hneg, Nat.pow_eq, Nat.pow_eq, pow_zero, Nat.cast_one, div_one, Nat.cast_pow, ← zpow_natCast,
      ← hsplit]
  · have hpos : e.toNat = 0 := by omega
    have hsplit : e = -((-e).toNat : Int) := by omega
    rw [hpos, Nat.pow_eq, Nat.pow_eq, pow_zero, Nat.cast_one, one_div, Nat.cast_pow, ← zpow_natCast,
      ← zpow_neg, ← hsplit]

theorem magnitude_eq (m : Nat) (e : Int) : Binary64.magnitude m e = m * (2 : Rat) ^ e := by
  have htwo := zpow_eq_div (b := 2) (by decide) e
  rw [Nat.cast_ofNat] at htwo
  rw [Binary64.magnitude, Rat.mkRat_eq_div, htwo]
  push_cast
  ring

section

variable {num den num' den' : Nat}

theorem scaleRatio_pos (hden : 0 < den) (k : Int) : 0 < (scaleRatio num den k).2 :=
  Nat.mul_pos hden (Nat.pow_pos (by decide))

theorem scaleRatio_value (num den : Nat) (k : Int) :
    ((scaleRatio num den k).1 : Rat) / (scaleRatio num den k).2 = num / den * (2 : Rat) ^ k := by
  have htwo := zpow_eq_div (b := 2) (by decide) k
  rw [Nat.cast_ofNat] at htwo
  rw [htwo, scaleRatio]
  push_cast
  rw [mul_div_mul_comm]

theorem div_eq_div_iff_nat (hden : 0 < den) (hden' : 0 < den') :
    (num : Rat) / den = num' / den' ↔ num * den' = num' * den := by
  have h : (den : Rat) ≠ 0 := by exact_mod_cast hden.ne'
  have h' : (den' : Rat) ≠ 0 := by exact_mod_cast hden'.ne'
  rw [div_eq_div_iff h h']
  exact_mod_cast Iff.rfl

theorem roundDiv_mul (num den : Nat) {k : Nat} (hk : 0 < k) :
    roundDiv (num * k) (den * k) = roundDiv num den := by
  have hrest : num * k % (den * k) = num % den * k := Nat.mul_mod_mul_right _ _ _
  have hbelow : 2 * (num % den * k) < den * k ↔ 2 * (num % den) < den := by
    rw [← Nat.mul_assoc]
    exact Nat.mul_lt_mul_right hk
  have habove : den * k < 2 * (num % den * k) ↔ den < 2 * (num % den) := by
    rw [← Nat.mul_assoc]
    exact Nat.mul_lt_mul_right hk
  simp only [roundDiv, Nat.mul_div_mul_right num den hk, hrest, hbelow, habove]

theorem roundDiv_congr (hden : 0 < den) (hden' : 0 < den')
    (h : (num : Rat) / den = num' / den') : roundDiv num den = roundDiv num' den' := by
  have hcross : num * den' = num' * den := (div_eq_div_iff_nat hden hden').mp h
  rw [← roundDiv_mul num den hden', ← roundDiv_mul num' den' hden, hcross, Nat.mul_comm den den']

theorem roundDiv_self_mul (m : Nat) (hden : 0 < den) : roundDiv (m * den) den = m := by
  have hrest : m * den % den = 0 := Nat.mul_mod_left m den
  simp [roundDiv, Nat.mul_div_cancel m hden, hrest, hden]

/-- A whole number below a quotient stays below it when that is rounded. -/
theorem le_roundDiv {bound : Nat} (hden : 0 < den) (h : (bound : Rat) ≤ num / den) :
    bound ≤ roundDiv num den := by
  have hcast : (0 : Rat) < den := by exact_mod_cast hden
  rw [le_div_iff₀ hcast] at h
  have hmul : bound * den ≤ num := by exact_mod_cast h
  exact Nat.le_trans ((Nat.le_div_iff_mul_le hden).mpr hmul) (div_le_roundDiv num den)

theorem roundDiv_le {bound : Nat} (hden : 0 < den) (h : (num : Rat) / den < bound) :
    roundDiv num den ≤ bound := by
  have hcast : (0 : Rat) < den := by exact_mod_cast hden
  rw [div_lt_iff₀ hcast] at h
  have hmul : num < bound * den := by exact_mod_cast h
  have hround := mul_roundDiv_le num hden
  by_contra hlarge
  have hnext : den * (bound + 1) ≤ den * roundDiv num den :=
    Nat.mul_le_mul_left den (Nat.not_le.mp hlarge)
  rw [Nat.mul_add, Nat.mul_comm den bound] at hnext
  omega

/-- An exponent is that of a quotient that lies between its power of two and the next. -/
def Brackets (q : Rat) (e : Int) : Prop := (2 : Rat) ^ e ≤ q ∧ q < (2 : Rat) ^ (e + 1)

theorem Brackets.unique {q : Rat} {e f : Int} (he : Brackets q e) (hf : Brackets q f) : e = f := by
  have hone : (1 : Rat) < 2 := by norm_num
  have hef : e < f + 1 := (zpow_lt_zpow_iff_right₀ hone).mp (lt_of_le_of_lt he.1 hf.2)
  have hfe : f < e + 1 := (zpow_lt_zpow_iff_right₀ hone).mp (lt_of_le_of_lt hf.1 he.2)
  omega

theorem brackets_log2 {n : Nat} (hn : n ≠ 0) : Brackets n n.log2 := by
  have hlow := Nat.log2_self_le hn
  have hhigh := Nat.lt_log2_self (n := n)
  constructor
  · rw [zpow_natCast]
    exact_mod_cast hlow
  · rw [← Nat.cast_succ, zpow_natCast]
    exact_mod_cast hhigh

theorem Brackets.mul_zpow {q : Rat} {e : Int} (h : Brackets q e) (k : Int) :
    Brackets (q * (2 : Rat) ^ k) (e + k) := by
  have hpos : (0 : Rat) < 2 ^ k := by positivity
  have htwo : (2 : Rat) ≠ 0 := by norm_num
  constructor
  · rw [zpow_add₀ htwo]
    exact mul_le_mul_of_nonneg_right h.1 hpos.le
  · rw [add_right_comm, zpow_add₀ htwo (e + 1) k]
    exact mul_lt_mul_of_pos_right h.2 hpos

theorem brackets_floorLog2 (hnum : num ≠ 0) (hden : 0 < den) :
    Brackets ((num : Rat) / den) (floorLog2 num den) := by
  have hn := brackets_log2 hnum
  have hd := brackets_log2 (Nat.pos_iff_ne_zero.mp hden)
  have hpos : (0 : Rat) < den := by exact_mod_cast hden
  have htwo : (2 : Rat) ≠ 0 := by norm_num
  let e : Int := (num.log2 : Int) - den.log2
  have hlow : (2 : Rat) ^ (e - 1) ≤ num / den := by
    rw [le_div_iff₀ hpos]
    calc (2 : Rat) ^ (e - 1) * den ≤ 2 ^ (e - 1) * 2 ^ ((den.log2 : Int) + 1) :=
          mul_le_mul_of_nonneg_left hd.2.le (by positivity)
      _ = 2 ^ (num.log2 : Int) := by
          rw [← zpow_add₀ htwo]
          congr 1
          omega
      _ ≤ num := hn.1
  have hhigh : (num : Rat) / den < 2 ^ (e + 1) := by
    rw [div_lt_iff₀ hpos]
    calc (num : Rat) < 2 ^ ((num.log2 : Int) + 1) := hn.2
      _ = 2 ^ (e + 1) * 2 ^ (den.log2 : Int) := by
          rw [← zpow_add₀ htwo]
          congr 1
          omega
      _ ≤ 2 ^ (e + 1) * den := mul_le_mul_of_nonneg_left hd.1 (by positivity)
  -- the estimate is right or one too high, and the quotient scaled by it tells which
  have hscaled := scaleRatio_value num den (-e)
  have hscaledPos : (0 : Rat) < (scaleRatio num den (-e)).2 := by
    exact_mod_cast scaleRatio_pos hden (-e)
  have hreaches : (scaleRatio num den (-e)).2 ≤ (scaleRatio num den (-e)).1 ↔
      (2 : Rat) ^ e ≤ num / den := by
    have hcast : (scaleRatio num den (-e)).2 ≤ (scaleRatio num den (-e)).1 ↔
        (1 : Rat) ≤ (scaleRatio num den (-e)).1 / (scaleRatio num den (-e)).2 := by
      rw [le_div_iff₀ hscaledPos, one_mul]
      exact_mod_cast Iff.rfl
    rw [hcast, hscaled, zpow_neg, ← div_eq_mul_inv, le_div_iff₀ (by positivity), one_mul]
  have hlog : floorLog2 num den =
      if (scaleRatio num den (-e)).2 ≤ (scaleRatio num den (-e)).1 then e else e - 1 := rfl
  rw [hlog]
  split
  next hr => exact ⟨hreaches.mp hr, hhigh⟩
  next hr =>
    refine ⟨hlow, ?_⟩
    rw [sub_add_cancel]
    exact not_le.mp fun hle => hr (hreaches.mpr hle)

end

namespace Binary64

/-- A number with a mantissa of 53 binary digits, or of fewer where the exponent is the least. -/
def Canonical : Binary64 → Prop
  | .finite _ m e => m < 2 ^ 53 ∧ minExponent ≤ e ∧ e ≤ maxExponent ∧ (2 ^ 52 ≤ m ∨ e = minExponent)
  | _ => True

variable {num den num' den' m : Nat} {e : Int} {negative : Bool}

def roundingExponent (log : Int) : Int := max (log - 52) minExponent

/-- The number of a rounded mantissa, which may have become one digit too long. -/
def ofRounded (negative : Bool) (m : Nat) (e : Int) : Binary64 :=
  let (m, e) := if m = Nat.pow 2 53 then (Nat.pow 2 52, e + 1) else (m, e)
  if maxExponent < e then .infinite negative else .finite negative m e

theorem ofRatio_eq (hnum : num ≠ 0) :
    ofRatio negative num den =
      let e := roundingExponent (floorLog2 num den)
      ofRounded negative (roundDiv (scaleRatio num den (-e)).1 (scaleRatio num den (-e)).2) e := by
  rw [ofRatio, if_neg hnum]
  rfl

theorem canonical_ofRounded (negative : Bool) (hmost : m ≤ 2 ^ 53) (hmin : minExponent ≤ e)
    (hleast : 2 ^ 52 ≤ m ∨ e = minExponent) : (ofRounded negative m e).Canonical := by
  unfold ofRounded
  by_cases hfull : m = Nat.pow 2 53
  · rw [if_pos hfull]
    dsimp only
    split
    · trivial
    next hin =>
      exact ⟨by decide, Int.le_trans hmin (by omega), Int.not_lt.mp hin, .inl (Nat.le_refl _)⟩
  · rw [if_neg hfull]
    dsimp only
    split
    · trivial
    next hin => exact ⟨Nat.lt_of_le_of_ne hmost hfull, hmin, Int.not_lt.mp hin, hleast⟩

theorem ofRounded_of_canonical (h : (finite negative m e).Canonical) :
    ofRounded negative m e = .finite negative m e := by
  obtain ⟨hmost, -, hmax, -⟩ := h
  have hfull : m ≠ Nat.pow 2 53 := Nat.ne_of_lt hmost
  simp only [ofRounded, if_neg hfull, if_neg (Int.not_lt.mpr hmax)]

theorem ofRatio_congr (hden : 0 < den) (hden' : 0 < den') (h : (num : Rat) / den = num' / den') :
    ofRatio negative num den = ofRatio negative num' den' := by
  have hcross := (div_eq_div_iff_nat hden hden').mp h
  by_cases hnum : num = 0
  · have hnum' : num' = 0 := by
      rw [hnum, Nat.zero_mul] at hcross
      exact (Nat.mul_eq_zero.mp hcross.symm).resolve_right hden.ne'
    rw [hnum, hnum']
    rfl
  · have hnum' : num' ≠ 0 := fun hzero => by
      rw [hzero, Nat.zero_mul] at hcross
      exact hnum ((Nat.mul_eq_zero.mp hcross).resolve_right hden'.ne')
    have hlog : floorLog2 num den = floorLog2 num' den' := by
      refine (brackets_floorLog2 hnum hden).unique ?_
      rw [h]
      exact brackets_floorLog2 hnum' hden'
    have hround : ∀ k, roundDiv (scaleRatio num den k).1 (scaleRatio num den k).2 =
        roundDiv (scaleRatio num' den' k).1 (scaleRatio num' den' k).2 := fun k =>
      roundDiv_congr (scaleRatio_pos hden k) (scaleRatio_pos hden' k) (by
        rw [scaleRatio_value, scaleRatio_value, h])
    simp only [ofRatio_eq hnum, ofRatio_eq hnum', hlog, hround]

theorem canonical_ofRatio (negative : Bool) (num : Nat) (hden : 0 < den) :
    (ofRatio negative num den).Canonical := by
  by_cases hnum : num = 0
  · rw [ofRatio, if_pos hnum]
    exact ⟨by decide, Int.le_refl _, by decide, .inr rfl⟩
  obtain ⟨hlow, hhigh⟩ := brackets_floorLog2 hnum hden
  rw [ofRatio_eq hnum]
  generalize floorLog2 num den = log at hlow hhigh ⊢
  let e := roundingExponent log
  have htwo : (2 : Rat) ≠ 0 := by norm_num
  have hscaled := scaleRatio_value num den (-e)
  have hpos : 0 < (scaleRatio num den (-e)).2 := scaleRatio_pos hden (-e)
  have hbelow : log - 52 ≤ e := Int.le_max_left _ _
  have hmost : roundDiv (scaleRatio num den (-e)).1 (scaleRatio num den (-e)).2 ≤ 2 ^ 53 := by
    refine roundDiv_le hpos ?_
    rw [hscaled]
    calc (num : Rat) / den * 2 ^ (-e) < 2 ^ (log + 1) * 2 ^ (-e) :=
          mul_lt_mul_of_pos_right hhigh (by positivity)
      _ = 2 ^ (log + 1 + -e) := (zpow_add₀ htwo _ _).symm
      _ ≤ 2 ^ (53 : Int) := zpow_le_zpow_right₀ (by norm_num) (by omega)
      _ = (2 ^ 53 : Nat) := by norm_num
  have hleast : 2 ^ 52 ≤ roundDiv (scaleRatio num den (-e)).1 (scaleRatio num den (-e)).2 ∨
      e = minExponent := by
    rcases Int.le_total (log - 52) minExponent with hle | hle
    · exact .inr (Int.max_eq_right hle)
    · left
      have he : log + -e = 52 := by
        have heq : e = log - 52 := Int.max_eq_left hle
        omega
      refine le_roundDiv hpos ?_
      rw [hscaled]
      calc ((2 ^ 52 : Nat) : Rat) = 2 ^ (log + -e) := by
            rw [he]
            norm_num
        _ = 2 ^ log * 2 ^ (-e) := zpow_add₀ htwo _ _
        _ ≤ num / den * 2 ^ (-e) := mul_le_mul_of_nonneg_right hlow (by positivity)
  exact canonical_ofRounded negative hmost (Int.le_max_right _ _) hleast

theorem ofRatio_of_canonical (h : (finite negative m e).Canonical) (hm : m ≠ 0) (hden : 0 < den)
    (hvalue : (num : Rat) / den = magnitude m e) :
    ofRatio negative num den = .finite negative m e := by
  obtain ⟨hmost, hmin, -, hleast⟩ := id h
  have hnum : num ≠ 0 := fun hzero => by
    rw [hzero, Nat.cast_zero, zero_div] at hvalue
    exact hm ((magnitude_eq_zero_iff m e).mp hvalue.symm)
  have hlog : floorLog2 num den = m.log2 + e := by
    refine (brackets_floorLog2 hnum hden).unique ?_
    rw [hvalue, magnitude_eq]
    exact (brackets_log2 hm).mul_zpow e
  have hsize : m.log2 < 53 := (Nat.log2_lt hm).mpr hmost
  have hexponent : roundingExponent (floorLog2 num den) = e := by
    rw [hlog, roundingExponent]
    rcases hleast with hlarge | rfl
    · have : 52 ≤ m.log2 := (Nat.le_log2 hm).mpr hlarge
      rw [Int.max_eq_left (by omega)]
      omega
    · exact Int.max_eq_right (by omega)
  have hscaled : ((scaleRatio num den (-e)).1 : Rat) / (scaleRatio num den (-e)).2 =
      ((m * 1 : Nat) : Rat) / (1 : Nat) := by
    rw [scaleRatio_value, hvalue, magnitude_eq, mul_assoc,
      ← zpow_add₀ (by norm_num : (2 : Rat) ≠ 0)]
    simp
  have hround : roundDiv (scaleRatio num den (-e)).1 (scaleRatio num den (-e)).2 = m := by
    rw [roundDiv_congr (scaleRatio_pos hden _) Nat.one_pos hscaled]
    exact roundDiv_self_mul m Nat.one_pos
  simp only [ofRatio_eq hnum, hexponent, hround]
  exact ofRounded_of_canonical h

end Binary64

end Overseer.Number
