import Overseer.Proofs.Number.Numerals
import Overseer.Settings

/-!
# Bounds

Amounts are compared as numbers, and not-a-number compares with nothing. Whatever text a limit is
read from, it lies within its bounds: not-a-number is held at the lower one.
-/

namespace Overseer.Number

namespace Extent

theorem lt_irrefl (p : Extent) : p.lt p = false := by
  cases p <;> simp [lt]

theorem lt_asymm {p q : Extent} (h : p.lt q = true) : q.lt p = false := by
  cases p <;> cases q <;> simp_all [lt, le_of_lt]

theorem eq_of_lt_eq_false {p q : Extent} (hpq : p.lt q = false) (hqp : q.lt p = false) : p = q := by
  cases p with
  | «at» p =>
    cases q with
    | «at» q => exact congrArg Extent.at (le_antisymm (not_lt.mp (of_decide_eq_false hqp))
        (not_lt.mp (of_decide_eq_false hpq)))
    | belowAll => cases hqp
    | aboveAll => cases hpq
  | belowAll => cases q <;> first | rfl | cases hpq
  | aboveAll => cases q <;> first | rfl | cases hqp

end Extent

namespace Seconds

variable {a b x minimum maximum : Seconds}

def AtMost (a b : Seconds) : Prop :=
  a.extent?.isSome = true ∧ b.extent?.isSome = true ∧ b.lt a = false

instance (a b : Seconds) : Decidable (a.AtMost b) := inferInstanceAs (Decidable (_ ∧ _))

def Within (minimum maximum x : Seconds) : Prop := minimum.AtMost x ∧ x.AtMost maximum

instance (minimum maximum x : Seconds) : Decidable (Within minimum maximum x) :=
  inferInstanceAs (Decidable (_ ∧ _))

theorem lt_irrefl (a : Seconds) : a.lt a = false := by
  rw [lt]
  cases a.extent? with
  | none => rfl
  | some p => exact p.lt_irrefl

theorem atMost_refl (h : a.extent?.isSome = true) : a.AtMost a := ⟨h, h, a.lt_irrefl⟩

theorem atMost_of_lt (h : a.lt b = true) : a.AtMost b := by
  unfold AtMost
  rw [lt] at h ⊢
  cases ha : a.extent? with
  | none => simp [ha] at h
  | some p =>
    cases hb : b.extent? with
    | none => simp [ha, hb] at h
    | some q =>
      rw [ha, hb] at h
      exact ⟨rfl, rfl, Extent.lt_asymm h⟩

theorem same_of_atMost (hab : a.AtMost b) (hba : b.AtMost a) : a.same b = true := by
  obtain ⟨ha, hb, hnot⟩ := hab
  have hnot' := hba.2.2
  obtain ⟨p, hp⟩ := Option.isSome_iff_exists.mp ha
  obtain ⟨q, hq⟩ := Option.isSome_iff_exists.mp hb
  rw [lt, hp, hq] at hnot hnot'
  rw [same, hp, hq, Extent.eq_of_lt_eq_false hnot' hnot]
  exact beq_self_eq_true q

theorem same_refl (h : a.extent?.isSome = true) : a.same a = true :=
  same_of_atMost (atMost_refl h) (atMost_refl h)

/-- What is held between bounds is one of them or the amount, which then lies between them. -/
theorem clamp_cases (minimum maximum x : Seconds) :
    clamp minimum maximum x = maximum ∧ maximum.lt x = true ∧ minimum.lt maximum = true ∨
      clamp minimum maximum x = x ∧ minimum.lt x = true ∧ maximum.lt x = false ∨
      clamp minimum maximum x = minimum ∧ (maximum.lt x = true ∨ minimum.lt x = false) := by
  unfold clamp greatest least
  by_cases hx : maximum.lt x = true
  · rw [if_pos hx]
    by_cases hm : minimum.lt maximum = true
    · exact .inl ⟨if_pos hm, hx, hm⟩
    · exact .inr (.inr ⟨if_neg hm, .inl hx⟩)
  · rw [if_neg hx]
    by_cases hm : minimum.lt x = true
    · exact .inr (.inl ⟨if_pos hm, hm, Bool.not_eq_true _ ▸ hx⟩)
    · exact .inr (.inr ⟨if_neg hm, .inr (Bool.not_eq_true _ ▸ hm)⟩)

theorem clamp_within (h : minimum.AtMost maximum) (x : Seconds) :
    Within minimum maximum (clamp minimum maximum x) := by
  obtain ⟨hmin, hmax, -⟩ := id h
  obtain ⟨heq, -⟩ | ⟨heq, hlow, hhigh⟩ | ⟨heq, -⟩ := clamp_cases minimum maximum x
  · rw [heq]
    exact ⟨h, atMost_refl hmax⟩
  · rw [heq]
    have hlow' := atMost_of_lt hlow
    exact ⟨hlow', hlow'.2.1, hmax, hhigh⟩
  · rw [heq]
    exact ⟨atMost_refl hmin, h⟩

theorem clamp_same (h : Within minimum maximum x) : (clamp minimum maximum x).same x = true := by
  obtain ⟨hlow, hhigh⟩ := h
  have hin : ¬ maximum.lt x = true := by
    rw [hhigh.2.2]
    decide
  obtain ⟨-, hlt, -⟩ | ⟨heq, -⟩ | ⟨heq, hlt⟩ := clamp_cases minimum maximum x
  · exact absurd hlt hin
  · rw [heq]
    exact same_refl hlow.2.1
  · rw [heq]
    have hnot : minimum.lt x = false := hlt.resolve_left hin
    exact same_of_atMost hlow ⟨hlow.2.1, hlow.1, hnot⟩

theorem clamp_clamp (h : minimum.AtMost maximum) (x : Seconds) :
    clamp minimum maximum (clamp minimum maximum x) = clamp minimum maximum x := by
  obtain ⟨heq, -, hlt⟩ | ⟨heq, -⟩ | ⟨heq, -⟩ := clamp_cases minimum maximum x
  · rw [heq, clamp, least, maximum.lt_irrefl, if_neg Bool.false_ne_true, greatest, if_pos hlt]
  · rw [heq, heq]
  · rw [heq, clamp, least, h.2.2, if_neg Bool.false_ne_true, greatest, minimum.lt_irrefl,
      if_neg Bool.false_ne_true]

end Seconds

end Overseer.Number

namespace Overseer

open Number

variable {value : Option String} {default minimum maximum : Seconds} {text : String}
  {x : Binary64}

theorem readLimit_eq (value : Option String) (default minimum maximum : Seconds) :
    readLimit value default minimum maximum =
      ((value.bind Binary64.read?).map fun x => Seconds.clamp minimum maximum (.real x)).getD
        default := by
  have hempty : Binary64.read? "" = none := by decide +kernel
  unfold readLimit
  cases value with
  | none => rfl
  | some text =>
    dsimp only [Option.bind_some]
    by_cases htext : text = ""
    · rw [if_pos htext, htext, hempty]
      rfl
    · rw [if_neg htext]
      cases Binary64.read? text <;> rfl

theorem readLimit_within (h : minimum.AtMost maximum)
    (hdefault : Seconds.Within minimum maximum default) (value : Option String) :
    Seconds.Within minimum maximum (readLimit value default minimum maximum) := by
  rw [readLimit_eq]
  cases value.bind Binary64.read? with
  | none => exact hdefault
  | some x => exact Seconds.clamp_within h (.real x)

theorem leastLimit_atMost : leastLimit.AtMost greatestLimit := by decide +kernel

theorem leastLimit_atMost_end : leastLimit.AtMost greatestEndLimit := by decide +kernel

/-- Every limit that is loaded is a number within its bounds, whatever the environment; and for all
bounds, a limit is the default if its text is missing, empty or no number, and otherwise it lies
between the bounds and is the number of the text if that does. -/
theorem limits_within_bounds :
    (leastLimit.extent? = some (.at (5764607523034235 / 2 ^ 59)) ∧
      greatestLimit.extent? = some (.at 3600) ∧ greatestEndLimit.extent? = some (.at 60)) ∧
    (∀ (env : Environment), let s := Settings.load env
      (∀ limit ∈ [s.runTimeout, s.readTimeout, s.readyTimeout],
        Seconds.Within leastLimit greatestLimit limit) ∧
      ∀ limit ∈ [s.termTimeout, s.killTimeout, s.drainTimeout],
        Seconds.Within leastLimit greatestEndLimit limit) ∧
    ∀ (value : Option String) (default minimum maximum : Seconds), minimum.AtMost maximum →
      let limit := readLimit value default minimum maximum
      (value = none ∨ value = some "" ∨ (∃ text, value = some text ∧ Binary64.read? text = none) →
        limit = default) ∧
      ∀ text x, value = some text → Binary64.read? text = some x →
        Seconds.Within minimum maximum limit ∧
          (Seconds.Within minimum maximum (.real x) → limit.same (.real x) = true) := by
  refine ⟨by decide +kernel, fun env => ?_, fun value default minimum maximum h => ⟨?_, ?_⟩⟩
  · have hdefaults : (∀ d ∈ [.ofDecimal 50 0, .ofDecimal 10 0, .ofDecimal 5 0],
        Seconds.Within leastLimit greatestLimit d) ∧
        ∀ d ∈ [.ofDecimal 2 0, .ofDecimal 1 0], Seconds.Within leastLimit greatestEndLimit d := by
      decide +kernel
    simp only [List.forall_mem_cons, List.not_mem_nil, false_implies, implies_true, and_true]
      at hdefaults ⊢
    obtain ⟨⟨hrun, hread, hready⟩, hterm, hkill⟩ := hdefaults
    exact ⟨⟨readLimit_within leastLimit_atMost hrun _, readLimit_within leastLimit_atMost hread _,
        readLimit_within leastLimit_atMost hready _⟩,
      readLimit_within leastLimit_atMost_end hterm _,
      readLimit_within leastLimit_atMost_end hkill _,
      readLimit_within leastLimit_atMost_end hkill _⟩
  · rintro (rfl | rfl | ⟨text, rfl, htext⟩)
    · rfl
    · rfl
    · rw [readLimit_eq, Option.bind_some, htext]
      rfl
  · rintro text x rfl hx
    rw [readLimit_eq, Option.bind_some, hx]
    exact ⟨Seconds.clamp_within h _, Seconds.clamp_same⟩

theorem limits_within_bounds_nan :
    leastLimit.AtMost greatestLimit ∧
      Seconds.Within leastLimit greatestLimit
        (readLimit (some " NaN ") (.ofDecimal 50 0) leastLimit greatestLimit) ∧
      Seconds.Within leastLimit greatestLimit (.real (.ofDecimal false 125 (-1))) ∧
      (readLimit (some "1_2.5") (.ofDecimal 50 0) leastLimit greatestLimit).same
        (.real (.ofDecimal false 125 (-1))) = true :=
  have hbounds : leastLimit.AtMost greatestLimit := by decide +kernel
  have hin : Seconds.Within leastLimit greatestLimit (.real (.ofDecimal false 125 (-1))) := by
    decide +kernel
  have hread := limits_within_bounds.2.2
  ⟨hbounds, ((hread _ _ _ _ hbounds).2 " NaN " .nan rfl (by decide +kernel)).1, hin,
    ((hread _ _ _ _ hbounds).2 "1_2.5" _ rfl (by decide +kernel)).2 hin⟩

end Overseer
