import Mathlib.Algebra.Order.Ring.Unbundled.Rat
import Overseer.Clock

/-!
# Limits

A limit that is not positive has run out as soon as it starts; a positive one runs out later, if
ever.
-/

namespace Overseer.Number

namespace Binary64

theorem magnitude_nonneg (m : Nat) (e : Int) : 0 ≤ magnitude m e :=
  Rat.mkRat_nonneg (Int.natCast_nonneg _) _

theorem magnitude_eq_zero_iff (m : Nat) (e : Int) : magnitude m e = 0 ↔ m = 0 := by
  have hd : Nat.pow 2 (-e).toNat ≠ 0 := Nat.pos_iff_ne_zero.mp (Nat.pow_pos (by decide))
  have hn : Nat.pow 2 e.toNat ≠ 0 := Nat.pos_iff_ne_zero.mp (Nat.pow_pos (by decide))
  rw [magnitude, Rat.mkRat_eq_zero hd, ← Int.natCast_mul, Int.natCast_eq_zero, Nat.mul_eq_zero]
  exact or_iff_left hn

end Binary64

namespace Seconds

def Positive (limit : Seconds) : Prop := (Seconds.whole 0).lt limit = true

instance (limit : Seconds) : Decidable limit.Positive := inferInstanceAs (Decidable (_ = true))

def Spent (limit : Seconds) : Prop :=
  limit.lt (.whole 0) = true ∨ limit.same (.whole 0) = true

instance (limit : Seconds) : Decidable limit.Spent := inferInstanceAs (Decidable (_ ∨ _))

theorem le_deadline {limit : Seconds} {now time : Instant} (h : limit.deadline now = some time) :
    now ≤ time := by
  obtain ⟨span, -, rfl⟩ := Option.map_eq_some_iff.mp h
  exact Nat.le_add_right now span

theorem Spent.deadline {limit : Seconds} (h : limit.Spent) (now : Instant) :
    limit.deadline now = some now := by
  have hspan : limit.span? = some 0 := by
    cases limit with
    | whole n =>
      have hn : n ≤ 0 := by
        rcases h with h | h
        · have hlt : ((n : Int) : Rat) < ((0 : Int) : Rat) := by
            simpa [lt, extent?, Extent.lt] using h
          exact Int.le_of_lt (Rat.intCast_lt_intCast.mp hlt)
        · have heq : n = 0 := by simpa [same, extent?] using h
          exact Int.le_of_eq heq
      simp [span?, Int.toNat_of_nonpos hn]
    | real x =>
      cases x with
      | nan => simp [Spent, lt, same, extent?, Binary64.extent?] at h
      | infinite negative =>
        cases negative with
        | true => rfl
        | false => simp [Spent, lt, same, extent?, Binary64.extent?, Extent.lt] at h
      | finite negative m e =>
        have hm : negative = true ∨ m = 0 := by
          cases negative with
          | true => exact .inl rfl
          | false =>
            right
            rw [← Binary64.magnitude_eq_zero_iff m e]
            rcases h with h | h
            · have hlt : Binary64.magnitude m e < 0 := by
                simpa [lt, extent?, Binary64.extent?, Extent.lt] using h
              exact absurd hlt (Rat.not_lt.mpr (Binary64.magnitude_nonneg m e))
            · simpa [same, extent?, Binary64.extent?] using h
        simp [span?, hm]
  simp [Seconds.deadline, hspan]

theorem Positive.lt_deadline {limit : Seconds} (h : limit.Positive) {now time : Instant}
    (ht : limit.deadline now = some time) : now < time := by
  obtain ⟨span, hspan, rfl⟩ := Option.map_eq_some_iff.mp ht
  have hpos : 0 < span := by
    cases limit with
    | whole n =>
      have hlt : ((0 : Int) : Rat) < ((n : Int) : Rat) := by
        simpa [Positive, lt, extent?, Extent.lt] using h
      have hn : 0 < n := Rat.intCast_lt_intCast.mp hlt
      obtain rfl : n.toNat * Instant.perSecond = span := Option.some.inj hspan
      exact Nat.mul_pos (by omega) (by decide)
    | real x =>
      cases x with
      | nan => cases hspan
      | infinite negative =>
        cases negative with
        | true => simp [Positive, lt, extent?, Binary64.extent?, Extent.lt] at h
        | false => cases hspan
      | finite negative m e =>
        have hm : ¬ (negative = true ∨ m = 0) := by
          rintro (rfl | rfl)
          · have hlt : 0 < -Binary64.magnitude m e := by
              simpa [Positive, lt, extent?, Binary64.extent?, Extent.lt] using h
            have hle : -Binary64.magnitude m e ≤ 0 := by
              simpa using Rat.neg_le_neg (Binary64.magnitude_nonneg m e)
            exact absurd hlt (Rat.not_lt.mpr hle)
          · have hz := (Binary64.magnitude_eq_zero_iff 0 e).mpr rfl
            simp [Positive, lt, extent?, Binary64.extent?, Extent.lt, hz] at h
        rw [span?, if_neg hm] at hspan
        obtain rfl := Option.some.inj hspan
        exact Nat.lt_of_lt_of_le Nat.one_pos (Nat.le_max_left _ _)
  exact Nat.lt_add_of_pos_right hpos

end Seconds

end Overseer.Number
