import Mathlib.Algebra.Order.Field.Rat
import Mathlib.Data.Nat.Cast.Order.Ring
import Mathlib.Tactic.Linarith
import Mathlib.Tactic.Positivity
import Mathlib.Tactic.Ring
import Overseer.Proofs.Number.Limits

/-!
# How long a limit is

The clock has ticks, a limit is any number of seconds. A positive limit takes a number of ticks that
is at most one tick too many, and that is as many as any whole number of ticks that fits into it
(`Seconds.exists_span`).
-/

namespace Overseer.Number

theorem div_le_roundDiv (num den : Nat) : num / den ≤ roundDiv num den := by
  unfold roundDiv
  dsimp only
  split
  · exact Nat.le_refl _
  · split
    · exact Nat.le_succ _
    · exact Nat.le_add_right _ _

theorem mul_roundDiv_le (num : Nat) {den : Nat} (hden : 0 < den) :
    2 * (den * roundDiv num den) ≤ 2 * num + den := by
  have hsplit : den * (num / den) + num % den = num := Nat.div_add_mod num den
  have hrest : num % den < den := Nat.mod_lt num hden
  unfold roundDiv
  dsimp only
  split
  · omega
  · split
    · rw [Nat.mul_add]
      omega
    · -- a tie, after which at most one is added
      have hle : den * (num / den % 2) ≤ den * 1 :=
        Nat.mul_le_mul_left den (Nat.le_of_lt_succ (Nat.mod_lt _ (by decide)))
      rw [Nat.mul_add]
      omega

namespace Seconds

def Exceeds (limit : Seconds) (ticks : Nat) : Prop :=
  limit.extent?.any (Extent.at ((ticks : Rat) / Instant.perSecond)).lt = true

instance (limit : Seconds) (ticks : Nat) : Decidable (limit.Exceeds ticks) :=
  inferInstanceAs (Decidable (_ = true))

/-- A moment is no more than so many ticks after a limit that starts at another one has run out,
exactly. -/
def Covers (limit : Seconds) (now : Instant) (more : Nat) (time : Instant) : Prop :=
  ∀ q, limit.extent? = some (.at q) → (time : Rat) ≤ now + q * (Instant.perSecond : Nat) + more

section

variable {limit : Seconds} {q : Rat} {now time : Instant} {ticks : Nat}

theorem cast_perSecond_pos : (0 : Rat) < (Instant.perSecond : Nat) := by
  rw [Instant.perSecond]
  norm_num

theorem magnitude_mul_perSecond (m : Nat) (e : Int) :
    Binary64.magnitude m e * (Instant.perSecond : Nat) =
      ((m * Instant.perSecond * Nat.pow 2 e.toNat : Nat) : Rat) / (Nat.pow 2 (-e).toNat : Nat) := by
  rw [Binary64.magnitude, Rat.mkRat_eq_div]
  push_cast
  ring

theorem exists_span_of_finite {m : Nat} {e : Int} (hm : m ≠ 0) :
    ∃ span, span? (.real (.finite false m e)) = some span ∧
      (span : Rat) ≤ Binary64.magnitude m e * (Instant.perSecond : Nat) + 1 ∧
      ∀ ticks : Nat, (ticks : Rat) ≤ Binary64.magnitude m e * (Instant.perSecond : Nat) →
        ticks ≤ span := by
  have hden : 0 < Nat.pow 2 (-e).toNat := Nat.pow_pos (by decide)
  have hcast : (0 : Rat) < (Nat.pow 2 (-e).toNat : Nat) := by exact_mod_cast hden
  let num := m * Instant.perSecond * Nat.pow 2 e.toNat
  have hspan : span? (.real (.finite false m e)) =
      some (max 1 (roundDiv num (Nat.pow 2 (-e).toNat))) := by
    simp [span?, hm, scaleRatio, num]
  refine ⟨_, hspan, ?_, fun ticks hticks => ?_⟩
  · rw [magnitude_mul_perSecond, Nat.cast_max]
    refine max_le ?_ ?_
    · have hnonneg : (0 : Rat) ≤ (num : Nat) / (Nat.pow 2 (-e).toNat : Nat) := by positivity
      rw [Nat.cast_one]
      linarith
    · have hround : (2 : Rat) * ((Nat.pow 2 (-e).toNat : Nat) *
          (roundDiv num (Nat.pow 2 (-e).toNat) : Nat)) ≤
            2 * (num : Nat) + (Nat.pow 2 (-e).toNat : Nat) := by
        exact_mod_cast mul_roundDiv_le num hden
      rw [← sub_le_iff_le_add, le_div_iff₀ hcast]
      linarith
  · rw [magnitude_mul_perSecond, le_div_iff₀ hcast] at hticks
    have hfits : ticks * Nat.pow 2 (-e).toNat ≤ num := by exact_mod_cast hticks
    have hle : ticks ≤ num / Nat.pow 2 (-e).toNat := (Nat.le_div_iff_mul_le hden).mpr hfits
    exact Nat.le_trans (Nat.le_trans hle (div_le_roundDiv _ _)) (Nat.le_max_right _ _)

theorem exists_span (hq : limit.extent? = some (.at q)) (hpos : 0 < q) :
    ∃ span, limit.span? = some span ∧ (span : Rat) ≤ q * (Instant.perSecond : Nat) + 1 ∧
      ∀ ticks : Nat, (ticks : Rat) ≤ q * (Instant.perSecond : Nat) → ticks ≤ span := by
  cases limit with
  | whole n =>
    obtain rfl : (n : Rat) = q := by simpa [extent?] using hq
    have hn : 0 < n := by exact_mod_cast hpos
    have hcast : ((n.toNat : Nat) : Rat) = (n : Rat) := by
      rw [← Int.cast_natCast, Int.toNat_of_nonneg (Int.le_of_lt hn)]
    refine ⟨n.toNat * Instant.perSecond, rfl, ?_, fun ticks hticks => ?_⟩
    · rw [Nat.cast_mul, hcast]
      linarith
    · rw [← hcast] at hticks
      exact_mod_cast hticks
  | real x =>
    cases x with
    | nan => cases hq
    | infinite negative => cases negative <;> cases hq
    | finite negative m e =>
      have hplace : (if negative then -Binary64.magnitude m e else Binary64.magnitude m e) = q := by
        simpa [extent?, Binary64.extent?] using hq
      have hnonneg := Binary64.magnitude_nonneg m e
      cases negative with
      | true =>
        rw [if_pos rfl] at hplace
        linarith
      | false =>
        rw [if_neg Bool.false_ne_true] at hplace
        have hm : m ≠ 0 := fun hzero => by
          rw [← hplace, (Binary64.magnitude_eq_zero_iff m e).mpr hzero] at hpos
          exact lt_irrefl 0 hpos
        exact hplace ▸ exists_span_of_finite hm

theorem Positive.pos_of_extent (h : limit.Positive) (hq : limit.extent? = some (.at q)) :
    0 < q := by
  rw [Positive, lt, hq] at h
  have hlt : ((0 : Int) : Rat) < q := of_decide_eq_true h
  exact_mod_cast hlt

theorem Positive.exists_deadline (h : limit.Positive) (hq : limit.extent? = some (.at q))
    (now : Instant) :
    ∃ time, limit.deadline now = some time ∧
      (time : Rat) ≤ now + q * (Instant.perSecond : Nat) + 1 := by
  obtain ⟨span, hspan, hle, -⟩ := exists_span hq (h.pos_of_extent hq)
  refine ⟨now + span, by rw [deadline, hspan]; rfl, ?_⟩
  push_cast
  linarith

/-- What comes before the deadline and some ticks is covered, though the deadline may be one tick
late. -/
theorem Positive.covers {more : Nat} (h : limit.Positive)
    (ht : ∀ d, limit.deadline now = some d → time < d + more) : limit.Covers now more time := by
  intro q hq
  obtain ⟨d, hd, hle⟩ := h.exists_deadline hq now
  have hlt : ((time + 1 : Nat) : Rat) ≤ ((d + more : Nat) : Rat) := by exact_mod_cast ht d hd
  push_cast at hlt
  linarith

/-- A limit that is longer than so many ticks does not run out before they have passed. -/
theorem Exceeds.le_deadline (h : limit.Exceeds ticks) (hd : limit.deadline now = some time) :
    now + ticks ≤ time := by
  obtain ⟨span, hspan, rfl⟩ := Option.map_eq_some_iff.mp hd
  obtain ⟨place, hplace, hlt⟩ := (Option.any_eq_true _ _).mp h
  cases place with
  | belowAll => cases hlt
  | aboveAll =>
    -- such a limit never runs out
    rcases limit with n | (_ | negative | ⟨negative, m, e⟩)
    · cases hplace
    · cases hplace
    · cases negative with
      | true => cases hplace
      | false => cases hspan
    · cases hplace
  | «at» q =>
    have hless : (ticks : Rat) / (Instant.perSecond : Nat) < q := of_decide_eq_true hlt
    have hfits : (ticks : Rat) < q * (Instant.perSecond : Nat) :=
      (div_lt_iff₀ cast_perSecond_pos).mp hless
    have hpos : 0 < q := lt_of_le_of_lt (by positivity) hless
    obtain ⟨other, hother, -, hall⟩ := exists_span hplace hpos
    obtain rfl := Option.some.inj (hspan.symm.trans hother)
    exact Nat.add_le_add_left (hall ticks hfits.le) now

end

end Seconds

end Overseer.Number
