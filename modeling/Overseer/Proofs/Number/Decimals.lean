import Overseer.Proofs.Number.Rounding

/-!
# Decimals

A decimal is rounded to a canonical number as its value is: zeros at the end of its digits make no
difference (`ofDecimal_mul_pow`), and one that is a canonical number already is left as it is. The
guards against decimals far out of reach never change that. So the shortest decimal of a number
always reads back (`readsBack_shortestDecimal`).
-/

namespace Overseer.Number

namespace Binary64

variable {digits m k : Nat} {exponent e : Int} {negative : Bool}

def decimalValue (digits : Nat) (exponent : Int) : Rat := digits * (10 : Rat) ^ exponent

theorem lt_pow_decimalLength (n : Nat) : n < 10 ^ decimalLength n :=
  (Nat.length_toDigits_le_iff (by decide) Nat.length_toDigits_pos).mp (Nat.le_refl _)

theorem decimalLength_le_iff (hk : 0 < k) : decimalLength digits ≤ k ↔ digits < 10 ^ k :=
  Nat.length_toDigits_le_iff (by decide) hk

theorem pow_le_of_lt_decimalLength (hd : digits ≠ 0) (hk : k < decimalLength digits) :
    10 ^ k ≤ digits := by
  rcases Nat.eq_zero_or_pos k with rfl | hpos
  · exact Nat.pos_of_ne_zero hd
  · exact Nat.not_lt.mp fun hlt => Nat.not_lt.mpr ((decimalLength_le_iff hpos).mpr hlt) hk

theorem decimalLength_pos (n : Nat) : 0 < decimalLength n := Nat.length_toDigits_pos

theorem decimalLength_mul_pow (hd : digits ≠ 0) (k : Nat) :
    decimalLength (digits * 10 ^ k) = decimalLength digits + k := by
  have hten : 0 < 10 ^ k := Nat.pow_pos (by decide)
  have hpos := decimalLength_pos digits
  have hne : digits * 10 ^ k ≠ 0 := Nat.mul_ne_zero hd hten.ne'
  apply Nat.le_antisymm
  · rw [decimalLength_le_iff (Nat.add_pos_left hpos k), Nat.pow_add]
    exact Nat.mul_lt_mul_of_pos_right (lt_pow_decimalLength digits) hten
  · by_contra hshort
    have hlow : 10 ^ (decimalLength digits - 1) ≤ digits :=
      pow_le_of_lt_decimalLength hd (Nat.sub_lt hpos Nat.one_pos)
    have hle : decimalLength (digits * 10 ^ k) ≤ decimalLength digits - 1 + k := by omega
    have hsmall : digits * 10 ^ k < 10 ^ (decimalLength digits - 1 + k) := by
      refine Nat.lt_of_lt_of_le (lt_pow_decimalLength _) (Nat.pow_le_pow_right (by decide) hle)
    rw [Nat.pow_add] at hsmall
    exact Nat.not_lt.mpr (Nat.mul_le_mul_right _ hlow) hsmall

/-- A decimal lies below the power of ten that it reaches, and not below the one before. -/
theorem decimalValue_bounds (hd : digits ≠ 0) (exponent : Int) :
    (10 : Rat) ^ ((decimalLength digits : Int) + exponent - 1) ≤ decimalValue digits exponent ∧
      decimalValue digits exponent < (10 : Rat) ^ ((decimalLength digits : Int) + exponent) := by
  have hten : (10 : Rat) ≠ 0 := by norm_num
  have hpos := decimalLength_pos digits
  have hlow := pow_le_of_lt_decimalLength hd (Nat.sub_lt hpos Nat.one_pos)
  have hhigh := lt_pow_decimalLength digits
  constructor
  · have hsplit : (decimalLength digits : Int) + exponent - 1 =
        ((decimalLength digits - 1 : Nat) : Int) + exponent := by omega
    rw [hsplit, zpow_add₀ hten, zpow_natCast, decimalValue]
    refine mul_le_mul_of_nonneg_right ?_ (by positivity)
    exact_mod_cast hlow
  · rw [zpow_add₀ hten, zpow_natCast, decimalValue]
    refine mul_lt_mul_of_pos_right ?_ (by positivity)
    exact_mod_cast hhigh

theorem decimalRatio_value (digits : Nat) (exponent : Int) :
    ((digits * Nat.pow 10 exponent.toNat : Nat) : Rat) / (Nat.pow 10 (-exponent).toNat : Nat) =
      decimalValue digits exponent := by
  have hten := zpow_eq_div (b := 10) (by decide) exponent
  rw [Nat.cast_ofNat] at hten
  rw [decimalValue, hten]
  push_cast
  rw [mul_div_assoc]

theorem canonical_zero (negative : Bool) : (finite negative 0 minExponent).Canonical :=
  ⟨by decide, Int.le_refl _, by decide, .inr rfl⟩

theorem canonical_ofDecimal (negative : Bool) (digits : Nat) (exponent : Int) :
    (ofDecimal negative digits exponent).Canonical := by
  unfold ofDecimal
  dsimp only
  split
  · exact canonical_zero negative
  · split
    · trivial
    · exact canonical_ofRatio negative _ (Nat.pow_pos (by decide))

theorem ofDecimal_zero (negative : Bool) (exponent : Int) :
    ofDecimal negative 0 exponent = .finite negative 0 minExponent := by
  simp [ofDecimal]

/-- Zeros at the end of the digits may as well be counted in the exponent. -/
theorem ofDecimal_mul_pow (negative : Bool) (digits k : Nat) (exponent : Int) :
    ofDecimal negative (digits * 10 ^ k) exponent = ofDecimal negative digits (exponent + k) := by
  by_cases hd : digits = 0
  · rw [hd, Nat.zero_mul, ofDecimal_zero, ofDecimal_zero]
  have hten : (10 : Rat) ≠ 0 := by norm_num
  have hne : digits * 10 ^ k ≠ 0 := Nat.mul_ne_zero hd (Nat.pow_pos (by decide)).ne'
  have hreach : ((decimalLength (digits * 10 ^ k) : Nat) : Int) + exponent =
      (decimalLength digits : Int) + (exponent + k) := by
    rw [decimalLength_mul_pow hd]
    omega
  have hvalue : decimalValue (digits * 10 ^ k) exponent = decimalValue digits (exponent + k) := by
    rw [decimalValue, decimalValue, zpow_add₀ hten, zpow_natCast]
    push_cast
    ring
  have hround : ofRatio negative (digits * 10 ^ k * Nat.pow 10 exponent.toNat)
      (Nat.pow 10 (-exponent).toNat) =
      ofRatio negative (digits * Nat.pow 10 (exponent + k).toNat)
        (Nat.pow 10 (-(exponent + k)).toNat) := by
    refine ofRatio_congr (Nat.pow_pos (by decide)) (Nat.pow_pos (by decide)) ?_
    rw [decimalRatio_value, decimalRatio_value, hvalue]
  simp only [ofDecimal, hreach, hround, hd, hne]

/-- The values of canonical numbers lie between the least and the greatest one. -/
theorem Canonical.bounds (h : (finite negative m e).Canonical) (hm : m ≠ 0) :
    (2 : Rat) ^ (-1074 : Int) ≤ magnitude m e ∧ magnitude m e < (2 : Rat) ^ (1025 : Int) := by
  obtain ⟨hmost, hmin, hmax, -⟩ := h
  have htwo : (2 : Rat) ≠ 0 := by norm_num
  have hone : (1 : Rat) ≤ 2 := by norm_num
  have hleast : (1 : Rat) ≤ m := by exact_mod_cast Nat.pos_of_ne_zero hm
  have hless : (m : Rat) < 2 ^ (53 : Int) := by exact_mod_cast hmost
  rw [magnitude_eq]
  constructor
  · calc (2 : Rat) ^ (-1074 : Int) ≤ 2 ^ e := zpow_le_zpow_right₀ hone hmin
      _ ≤ m * 2 ^ e := le_mul_of_one_le_left (by positivity) hleast
  · calc (m : Rat) * 2 ^ e < 2 ^ (53 : Int) * 2 ^ e := mul_lt_mul_of_pos_right hless (by positivity)
      _ = 2 ^ (53 + e) := (zpow_add₀ htwo _ _).symm
      _ ≤ 2 ^ (1025 : Int) := zpow_le_zpow_right₀ hone (by
          have : e ≤ 971 := hmax
          omega)

theorem zpow_le_zpow_of_nat {a b k l n : Nat} {e f : Int} (h : a ^ k ≤ b ^ l)
    (he : e = (k * n : Nat)) (hf : f = (l * n : Nat)) : (a : Rat) ^ e ≤ (b : Rat) ^ f := by
  rw [he, hf, zpow_natCast, zpow_natCast, pow_mul, pow_mul]
  exact pow_le_pow_left₀ (by positivity) (by exact_mod_cast h) n

theorem reach_of_canonical (h : (finite negative m e).Canonical) (hm : m ≠ 0) (hd : digits ≠ 0)
    (hvalue : decimalValue digits exponent = magnitude m e) :
    -330 ≤ (decimalLength digits : Int) + exponent ∧
      (decimalLength digits : Int) + exponent ≤ 310 := by
  obtain ⟨hleast, hmost⟩ := h.bounds hm
  obtain ⟨hlow, hhigh⟩ := decimalValue_bounds hd exponent
  rw [hvalue] at hlow hhigh
  have hone : (1 : Rat) < 10 := by norm_num
  have hsmall : (10 : Rat) ^ (-330 : Int) ≤ 2 ^ (-1074 : Int) := by
    have hpow : ((2 : Nat) : Rat) ^ (1074 : Int) ≤ ((10 : Nat) : Rat) ^ (330 : Int) :=
      zpow_le_zpow_of_nat (by decide : 2 ^ 179 ≤ 10 ^ 55) (n := 6) rfl rfl
    rw [Nat.cast_ofNat, Nat.cast_ofNat] at hpow
    rw [zpow_neg, zpow_neg]
    exact inv_anti₀ (zpow_pos (by norm_num) _) hpow
  have hlarge : (2 : Rat) ^ (1025 : Int) ≤ 10 ^ (310 : Int) := by
    have hpow : ((2 : Nat) : Rat) ^ (1025 : Int) ≤ ((10 : Nat) : Rat) ^ (310 : Int) :=
      zpow_le_zpow_of_nat (by decide : 2 ^ 205 ≤ 10 ^ 62) (n := 5) rfl rfl
    rwa [Nat.cast_ofNat, Nat.cast_ofNat] at hpow
  have habove : (-330 : Int) < (decimalLength digits : Int) + exponent :=
    (zpow_lt_zpow_iff_right₀ hone).mp (lt_of_le_of_lt (hsmall.trans hleast) hhigh)
  have hbelow : (decimalLength digits : Int) + exponent - 1 < 310 :=
    (zpow_lt_zpow_iff_right₀ hone).mp (lt_of_lt_of_le (lt_of_le_of_lt hlow hmost) hlarge)
  omega

theorem ofDecimal_of_canonical (h : (finite negative m e).Canonical) (hm : m ≠ 0)
    (hvalue : decimalValue digits exponent = magnitude m e) :
    ofDecimal negative digits exponent = .finite negative m e := by
  have hd : digits ≠ 0 := fun hzero => by
    rw [decimalValue, hzero, Nat.cast_zero, zero_mul] at hvalue
    exact hm ((magnitude_eq_zero_iff m e).mp hvalue.symm)
  obtain ⟨hlow, hhigh⟩ := reach_of_canonical h hm hd hvalue
  have hin : ¬ (digits = 0 ∨ (decimalLength digits : Int) + exponent < -330) :=
    fun hout => hout.elim hd (Int.not_lt.mpr hlow)
  simp only [ofDecimal, if_neg hin, if_neg (Int.not_lt.mpr hhigh)]
  exact ofRatio_of_canonical h hm (Nat.pow_pos (by decide)) ((decimalRatio_value _ _).trans hvalue)

theorem ofRounded_eq_finite {n : Nat} {f : Int} (h : ofRounded false n f = .finite false m e)
    (negative : Bool) : ofRounded negative n f = .finite negative m e := by
  unfold ofRounded at h ⊢
  -- the mantissa and the exponent are settled before the sign is written
  generalize (if n = Nat.pow 2 53 then (Nat.pow 2 52, f + 1) else (n, f)) = rounded at h ⊢
  dsimp only at h ⊢
  split at h
  · cases h
  next hin =>
    obtain ⟨-, rfl, rfl⟩ := Binary64.finite.inj h
    rw [if_neg hin]

theorem ofDecimal_eq_finite (h : ofDecimal false digits exponent = .finite false m e)
    (negative : Bool) : ofDecimal negative digits exponent = .finite negative m e := by
  unfold ofDecimal at h ⊢
  dsimp only at h ⊢
  split at h
  next hzero =>
    obtain ⟨-, rfl, rfl⟩ := Binary64.finite.inj h
    rw [if_pos hzero]
  next hzero =>
    rw [if_neg hzero]
    split at h
    · cases h
    next hreach =>
      rw [if_neg hreach]
      have hnum : digits * Nat.pow 10 exponent.toNat ≠ 0 :=
        Nat.mul_ne_zero (fun hd => hzero (.inl hd)) (Nat.pow_pos (by decide)).ne'
      rw [ofRatio_eq hnum] at h ⊢
      exact ofRounded_eq_finite h negative

end Binary64

open Binary64

variable {m : Nat} {e : Int} {negative : Bool}

theorem exactDecimal_value (m : Nat) (e : Int) :
    decimalValue (exactDecimal m e).digits (exactDecimal m e).exponent = magnitude m e := by
  rw [magnitude_eq]
  unfold exactDecimal decimalValue
  split
  next he =>
    have hsplit : (e.toNat : Int) = e := Int.toNat_of_nonneg he
    dsimp only
    rw [Nat.pow_eq, zpow_zero, mul_one, Nat.cast_mul, Nat.cast_pow, ← zpow_natCast, hsplit,
      Nat.cast_ofNat]
  next he =>
    have hsplit : ((-e).toNat : Int) = -e := Int.toNat_of_nonneg (by omega)
    have hten : (10 : Rat) = 5 * 2 := by norm_num
    dsimp only
    rw [Nat.pow_eq, Nat.cast_mul, Nat.cast_pow, ← zpow_natCast, hsplit, Nat.cast_ofNat, hten,
      mul_zpow, mul_assoc, ← mul_assoc ((5 : Rat) ^ (-e)), ← zpow_add₀ (by norm_num)]
    simp

theorem find?_getD {α : Type} {p : α → Bool} {last : α} (h : p last = true) (tried : List α) :
    p ((tried.find? p).getD last) = true := by
  cases hfound : tried.find? p with
  | some found => exact List.find?_some hfound
  | none => exact h

/-- The shortest decimal of a canonical number reads back as that number. -/
theorem readsBack_shortestDecimal (h : (finite false m e).Canonical) (hm : m ≠ 0) :
    (shortestDecimal m e).readsBack m e = true := by
  have hexact : (exactDecimal m e).readsBack m e = true :=
    decide_eq_true (ofDecimal_of_canonical h hm (exactDecimal_value m e))
  exact find?_getD hexact _

theorem ofDecimal_shortestDecimal (h : (finite negative m e).Canonical) (hm : m ≠ 0) :
    ofDecimal negative (shortestDecimal m e).digits (shortestDecimal m e).exponent =
      .finite negative m e :=
  ofDecimal_eq_finite
    (of_decide_eq_true (readsBack_shortestDecimal (m := m) (e := e) h hm)) negative

end Overseer.Number
