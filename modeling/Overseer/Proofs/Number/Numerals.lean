import Mathlib.Data.Option.Basic
import Overseer.Proofs.Number.Decimals

/-!
# Numerals

The text of a number is read as that number (`read?_text`). A decimal is written in one of five
layouts, all of them digits with perhaps a point and perhaps an exponent (`Numeral`); what such a
text is read as follows from its digits, and the layouts differ only in where the zeros at the end
are counted. -/

namespace Overseer.Number

variable {s mark : List Char} {c : Char} {digits : Nat} {e : Int}

/-- A character that is no digit of another script, no blank and no underscore. -/
def Plain (c : Char) : Prop := asciiDigit c = c ∧ isMargin c = false ∧ c ≠ '_'

instance (c : Char) : Decidable (Plain c) := inferInstanceAs (Decidable (_ ∧ _))

theorem isDigit_iff_toNat : c.isDigit = true ↔ 48 ≤ c.toNat ∧ c.toNat ≤ 57 := by
  simp only [Char.isDigit, Bool.and_eq_true, decide_eq_true_eq, ge_iff_le, UInt32.le_iff_toNat_le]
  exact Iff.rfl

theorem exists_lt_of_isDigit (h : c.isDigit = true) : ∃ d < 10, c = Char.ofNat (48 + d) := by
  obtain ⟨hlow, hhigh⟩ := isDigit_iff_toNat.mp h
  refine ⟨c.toNat - 48, by omega, ?_⟩
  rw [Nat.add_sub_cancel' hlow, Char.ofNat_toNat]

theorem plain_of_isDigit (h : c.isDigit = true) : Plain c := by
  obtain ⟨d, hd, rfl⟩ := exists_lt_of_isDigit h
  have hall : ∀ d < 10, Plain (Char.ofNat (48 + d)) := by decide +kernel
  exact hall d hd

theorem toLower_of_isDigit (h : c.isDigit = true) : c.toLower = c := by
  obtain ⟨d, hd, rfl⟩ := exists_lt_of_isDigit h
  have hall : ∀ d < 10, (Char.ofNat (48 + d)).toLower = Char.ofNat (48 + d) := by decide +kernel
  exact hall d hd

theorem dropWhile_of_forall {p : Char → Bool} (h : ∀ c ∈ s, p c = false) : s.dropWhile p = s := by
  cases s with
  | nil => rfl
  | cons c s => rw [List.dropWhile_cons_of_neg (by simp [h c])]

theorem trimMargins_plain (h : ∀ c ∈ s, Plain c) : trimMargins s = s := by
  have hmargin : ∀ c ∈ s, isMargin c = false := fun c hc => (h c hc).2.1
  rw [trimMargins, dropWhile_of_forall hmargin, dropWhile_of_forall, List.reverse_reverse]
  exact fun c hc => hmargin c (List.mem_reverse.mp hc)

theorem joinDigits?_plain (h : ∀ c ∈ s, Plain c) {previous : Char} (hp : previous ≠ '_') :
    joinDigits? previous s = some s := by
  induction s generalizing previous with
  | nil => rw [joinDigits?, if_neg hp]
  | cons c s ih =>
    have hc : c ≠ '_' := (h c List.mem_cons_self).2.2
    rw [joinDigits?, if_neg hc, if_neg fun hjoint => hp hjoint.1,
      ih (fun c hmem => h c (List.mem_cons_of_mem _ hmem)) hc, Option.map_some]

theorem read?_plain (h : ∀ c ∈ s, Plain c) :
    Binary64.read? (String.ofList s) =
      (special? (splitSign s).1 (splitSign s).2 <|> unsigned? (splitSign s).1 (splitSign s).2) := by
  have hdigits : s.map asciiDigit = s := by
    conv_rhs => rw [← List.map_id s]
    exact List.map_congr_left fun c hc => (h c hc).1
  rw [Binary64.read?, String.toList_ofList, hdigits, trimMargins_plain h,
    joinDigits?_plain h (by decide)]
  rfl

theorem splitSign_digit (h : c.isDigit = true) (s : List Char) :
    splitSign (c :: s) = (false, c :: s) := by
  unfold splitSign
  split
  next heq => exact absurd h (by simp [(List.cons.inj heq).1])
  next heq => exact absurd h (by simp [(List.cons.inj heq).1])
  next => rfl

theorem special?_digit (h : c.isDigit = true) (negative : Bool) (s : List Char) :
    special? negative (c :: s) = none := by
  have hne : ∀ (l : Char) (rest : List Char), l.isDigit = false →
      String.ofList ((c :: s).map Char.toLower) ≠ String.ofList (l :: rest) := by
    intro l rest hl heq
    rw [String.ofList_inj, List.map_cons, toLower_of_isDigit h] at heq
    rw [(List.cons.inj heq).1, hl] at h
    cases h
  unfold special?
  split
  next heq => exact absurd heq (hne 'i' ['n', 'f'] rfl)
  next heq => exact absurd heq (hne 'i' ['n', 'f', 'i', 'n', 'i', 't', 'y'] rfl)
  next heq => exact absurd heq (hne 'n' ['a', 'n'] rfl)
  next => rfl

theorem natOfDigits_eq (s : List Char) : natOfDigits s = Nat.ofDigitChars 10 s 0 := by
  have hstep : (fun (n : Nat) (c : Char) => n * 10 + (c.toNat - 0x30)) =
      fun n c => 10 * n + (c.toNat - '0'.toNat) := by
    funext n c
    rw [Nat.mul_comm]
    rfl
  rw [natOfDigits, hstep, Nat.ofDigitChars_eq_foldl]

theorem natOfDigits_toDigits (n : Nat) : natOfDigits (Nat.toDigits 10 n) = n := by
  rw [natOfDigits_eq, Nat.ofDigitChars_toDigits (by decide) (by decide)]

theorem natOfDigits_zeros_append (k : Nat) (s : List Char) :
    natOfDigits (List.replicate k '0' ++ s) = natOfDigits s := by
  rw [natOfDigits_eq, natOfDigits_eq, Nat.ofDigitChars_append, Nat.ofDigitChars_replicate_zero,
    Nat.mul_zero]

theorem natOfDigits_append_zeros (s : List Char) (k : Nat) :
    natOfDigits (s ++ List.replicate k '0') = natOfDigits s * 10 ^ k := by
  rw [natOfDigits_eq, natOfDigits_eq, Nat.ofDigitChars_append, Nat.ofDigitChars_replicate_zero,
    Nat.mul_comm]

theorem stripZeros_eq (fuel n : Nat) :
    (stripZeros fuel n).1 * 10 ^ (stripZeros fuel n).2 = n := by
  induction fuel generalizing n with
  | zero => simp [stripZeros]
  | succ fuel ih =>
    rw [stripZeros]
    split
    next h =>
      have hn : n / 10 * 10 = n := Nat.div_mul_cancel (Nat.dvd_of_mod_eq_zero h.2)
      dsimp only
      rw [Nat.pow_succ, ← Nat.mul_assoc, ih, hn]
    next => rw [Nat.pow_zero, Nat.mul_one]

def AllDigits (s : List Char) : Prop := ∀ c ∈ s, c.isDigit = true

theorem allDigits_toDigits (n : Nat) : AllDigits (Nat.toDigits 10 n) :=
  fun _ h => Nat.isDigit_of_mem_toDigits (by decide) (by decide) h

theorem allDigits_zeros (k : Nat) : AllDigits (List.replicate k '0') :=
  fun c h => by rw [List.eq_of_mem_replicate h]; rfl

theorem AllDigits.append {t : List Char} (hs : AllDigits s) (ht : AllDigits t) :
    AllDigits (s ++ t) :=
  fun c h => (List.mem_append.mp h).elim (hs c) (ht c)

theorem AllDigits.plain (h : AllDigits s) : ∀ c ∈ s, Plain c := fun c hc =>
    plain_of_isDigit (h c hc)

def Mark (mark : List Char) (e : Int) : Prop := mark = [] ∧ e = 0 ∨ mark = exponentText e

theorem exponent?_exponentText (e : Int) : exponent? (exponentText e) = some e := by
  let ds := Nat.toDigits 10 e.natAbs
  let padded := List.replicate (2 - ds.length) '0' ++ ds
  have hvalue : natOfDigits padded = e.natAbs := by
    rw [natOfDigits_zeros_append, natOfDigits_toDigits]
  have hsome : padded ≠ [] ∧ padded.all Char.isDigit = true := by
    refine ⟨List.append_ne_nil_of_right_ne_nil _ Nat.toDigits_ne_nil, List.all_eq_true.mpr ?_⟩
    exact (allDigits_zeros _).append (allDigits_toDigits _)
  have htext : exponentText e = 'e' :: (if e < 0 then '-' else '+') :: padded := rfl
  rw [htext]
  by_cases he : e < 0
  · have hneg : -(e.natAbs : Int) = e := by omega
    simp only [exponent?, if_pos he, splitSign, if_pos hsome, hvalue, hneg, true_or, if_true]
  · have hpos : (e.natAbs : Int) = e := by omega
    simp only [exponent?, if_neg he, splitSign, if_pos hsome, hvalue, hpos, true_or, if_true]
    simp

theorem Mark.exponent? (h : Mark mark e) : exponent? mark = some e := by
  obtain ⟨rfl, rfl⟩ | rfl := h
  · rfl
  · exact exponent?_exponentText e

theorem Mark.plain (h : Mark mark e) : ∀ c ∈ mark, Plain c := by
  obtain ⟨rfl, -⟩ | rfl := h
  · simp
  · intro c hc
    rw [exponentText, List.mem_cons, List.mem_cons] at hc
    obtain rfl | rfl | hdigits := hc
    · decide +kernel
    · split <;> decide +kernel
    · exact ((allDigits_zeros _).append (allDigits_toDigits _)).plain c hdigits

theorem Mark.head (h : Mark mark e) : mark.takeWhile Char.isDigit = [] ∧ mark.head? ≠ some '.' := by
  obtain ⟨rfl, -⟩ | rfl := h
  · simp
  · exact ⟨rfl, by simp [exponentText]⟩

theorem Mark.dropWhile (h : Mark mark e) : mark.dropWhile Char.isDigit = mark := by
  obtain ⟨rfl, -⟩ | rfl := h <;> rfl

/-- Digits, perhaps a point with more digits, and perhaps an exponent; what the digits and the
exponent say. -/
inductive Numeral : List Char → Nat → Int → Prop
  | whole {whole mark : List Char} {e : Int} (hw : AllDigits whole) (hne : whole ≠ [])
      (hm : Mark mark e) : Numeral (whole ++ mark) (natOfDigits whole) e
  | point {whole fraction mark : List Char} {e : Int} (hw : AllDigits whole) (hne : whole ≠ [])
      (hf : AllDigits fraction) (hm : Mark mark e) :
      Numeral (whole ++ '.' :: (fraction ++ mark)) (natOfDigits (whole ++ fraction))
        (e - fraction.length)

theorem Numeral.plain (h : Numeral s digits e) : ∀ c ∈ s, Plain c := by
  cases h with
  | whole hw _ hm => exact fun c hc => (List.mem_append.mp hc).elim (hw.plain c) (hm.plain c)
  | point hw _ hf hm =>
    intro c hc
    rw [List.mem_append, List.mem_cons, List.mem_append] at hc
    obtain hwhole | rfl | hfraction | hmark := hc
    · exact hw.plain c hwhole
    · decide +kernel
    · exact hf.plain c hfraction
    · exact hm.plain c hmark

theorem Numeral.exists_digit (h : Numeral s digits e) :
    ∃ c rest, s = c :: rest ∧ c.isDigit = true := by
  cases h with
  | @whole whole _ _ hw hne _ =>
    obtain ⟨c, rest, rfl⟩ := List.exists_cons_of_ne_nil hne
    exact ⟨c, _, rfl, hw c List.mem_cons_self⟩
  | @point whole _ _ _ hw hne _ _ =>
    obtain ⟨c, rest, rfl⟩ := List.exists_cons_of_ne_nil hne
    exact ⟨c, _, rfl, hw c List.mem_cons_self⟩

theorem AllDigits.takeWhile_append (h : AllDigits s) (t : List Char) :
    (s ++ t).takeWhile Char.isDigit = s ++ t.takeWhile Char.isDigit :=
  List.takeWhile_append_of_pos h

theorem AllDigits.dropWhile_append (h : AllDigits s) (t : List Char) :
    (s ++ t).dropWhile Char.isDigit = t.dropWhile Char.isDigit :=
  List.dropWhile_append_of_pos h

theorem Numeral.unsigned? (h : Numeral s digits e) (negative : Bool) :
    unsigned? negative s = some (.ofDecimal negative digits e) := by
  cases h with
  | @whole whole mark e hw hne hm =>
    have hpoint : ∀ more, mark ≠ '.' :: more := fun more heq => hm.head.2 (by rw [heq]; rfl)
    simp only [Number.unsigned?, hw.takeWhile_append, hw.dropWhile_append, hm.head.1, hm.dropWhile,
      List.append_nil, hne, false_and, if_false, hm.exponent?, Option.map_some,
      List.length_nil, Nat.cast_zero, sub_zero]
  | @point whole fraction mark e hw hne hf hm =>
    have hstop : ('.' :: (fraction ++ mark)).takeWhile Char.isDigit = [] := rfl
    have hrest :
        ('.' :: (fraction ++ mark)).dropWhile Char.isDigit = '.' :: (fraction ++ mark) := rfl
    simp only [Number.unsigned?, hw.takeWhile_append, hw.dropWhile_append, hstop, hrest,
      hf.takeWhile_append, hf.dropWhile_append, hm.head.1, hm.dropWhile, List.append_nil, hne,
      false_and, if_false, hm.exponent?, Option.map_some]

/-- A numeral with or without a minus sign is read as the decimal it writes. -/
theorem Numeral.read? (h : Numeral s digits e) (negative : Bool) :
    Binary64.read? (String.ofList (if negative then '-' :: s else s)) =
      some (.ofDecimal negative digits e) := by
  obtain ⟨c, rest, rfl, hc⟩ := h.exists_digit
  cases negative with
  | false =>
    rw [if_neg (by decide), read?_plain h.plain, splitSign_digit hc, special?_digit hc,
      h.unsigned? false]
    rfl
  | true =>
    have hplain : ∀ c' ∈ '-' :: c :: rest, Plain c' := by
      intro c' hc'
      rcases List.mem_cons.mp hc' with rfl | hmem
      · decide +kernel
      · exact h.plain c' hmem
    rw [if_pos rfl, read?_plain hplain, splitSign, special?_digit hc, h.unsigned? true]
    rfl

theorem Numeral.of_zeros_before (hds : AllDigits ds) (k : Nat) :
    Numeral ('0' :: '.' :: (List.replicate k '0' ++ ds)) (natOfDigits ds)
      (-((k + ds.length : Nat) : Int)) := by
  have hnum := Numeral.point (allDigits_zeros 1) (by decide) ((allDigits_zeros k).append hds)
    (.inl ⟨rfl, rfl⟩)
  have hvalue : natOfDigits (List.replicate 1 '0' ++ (List.replicate k '0' ++ ds)) =
      natOfDigits ds := by
    rw [natOfDigits_zeros_append, natOfDigits_zeros_append]
  rwa [hvalue, List.append_nil, Int.zero_sub, List.length_append, List.length_replicate] at hnum

theorem Numeral.of_zeros_behind (hds : AllDigits ds) (hne : ds ≠ []) (k : Nat) :
    Numeral (ds ++ List.replicate k '0' ++ ['.', '0']) (natOfDigits ds * 10 ^ (k + 1)) (-1) := by
  have hnum := Numeral.point (hds.append (allDigits_zeros k))
    (List.append_ne_nil_of_left_ne_nil hne _) (allDigits_zeros 1) (.inl ⟨rfl, rfl⟩)
  have hvalue : natOfDigits (ds ++ List.replicate k '0' ++ List.replicate 1 '0') =
      natOfDigits ds * 10 ^ (k + 1) := by
    rw [List.append_assoc, List.replicate_append_replicate, natOfDigits_append_zeros]
  rwa [hvalue] at hnum

theorem Numeral.of_append {before behind : List Char} (hds : AllDigits (before ++ behind))
    (hne : before ≠ []) (hm : Mark mark e) :
    Numeral (before ++ '.' :: (behind ++ mark)) (natOfDigits (before ++ behind))
      (e - behind.length) :=
  .point (fun c hc => hds c (List.mem_append_left _ hc)) hne
    (fun c hc => hds c (List.mem_append_right _ hc)) hm

/-- A decimal is written as a numeral of the same value; some of the zeros that its digits end with
may be counted in the exponent. -/
theorem numeral_text (d : DecimalForm) :
    ∃ (n zeros k : Nat) (e : Int), d.digits = n * 10 ^ zeros ∧ e + k = d.exponent + zeros ∧
      Numeral d.text (n * 10 ^ k) e := by
  obtain ⟨n, zeros, hstrip⟩ : ∃ n zeros,
      stripZeros (Binary64.decimalLength d.digits) d.digits = (n, zeros) := ⟨_, _, rfl⟩
  have hdigits : d.digits = n * 10 ^ zeros := by
    have hsplit := stripZeros_eq (Binary64.decimalLength d.digits) d.digits
    rw [hstrip] at hsplit
    exact hsplit.symm
  refine ⟨n, zeros, ?_⟩
  have hds := allDigits_toDigits n
  have hne : Nat.toDigits 10 n ≠ [] := Nat.toDigits_ne_nil
  have hvalue := natOfDigits_toDigits n
  -- but for the zeros before the point the value is that of the digits alone
  have hsame : ∀ {s e}, Numeral s n e → Numeral s (n * 10 ^ 0) e := fun h => by
    rwa [Nat.pow_zero, Nat.mul_one]
  simp only [DecimalForm.text, hstrip]
  generalize Nat.toDigits 10 n = ds at hds hne hvalue ⊢
  obtain ⟨point, hpoint⟩ : ∃ point : Int, (ds.length : Int) + zeros + d.exponent = point := ⟨_, rfl⟩
  simp only [hpoint]
  subst hvalue
  split
  · split
    next hsmall =>
      refine ⟨0, _, hdigits, ?_, hsame (.of_zeros_before hds _)⟩
      omega
    next hlarge =>
      split
      next hlong =>
        refine ⟨_, _, hdigits, ?_, .of_zeros_behind hds hne _⟩
        omega
      next hshort =>
        obtain ⟨before, behind, rfl, hlength⟩ : ∃ before behind, ds = before ++ behind ∧
            before.length = point.toNat :=
          ⟨ds.take point.toNat, ds.drop point.toNat, (List.take_append_drop _ _).symm,
            List.length_take_of_le (by omega)⟩
        have hsome : before ≠ [] := List.ne_nil_of_length_pos (by omega)
        have hnum := Numeral.of_append hds hsome (.inl ⟨rfl, rfl⟩)
        rw [List.append_nil] at hnum
        rw [← hlength, List.take_left, List.drop_left]
        refine ⟨0, _, hdigits, ?_, hsame hnum⟩
        rw [List.length_append] at hpoint
        omega
  · have hmark : Mark (exponentText (point - 1)) (point - 1) := .inr rfl
    obtain ⟨c, rest, rfl⟩ := List.exists_cons_of_ne_nil hne
    rw [List.length_cons] at hpoint
    cases rest with
    | nil =>
      refine ⟨0, _, hdigits, ?_, hsame (.whole hds hne hmark)⟩
      rw [List.length_nil] at hpoint
      omega
    | cons c' rest =>
      have hall : AllDigits ([c] ++ c' :: rest) := hds
      refine ⟨0, _, hdigits, ?_, hsame (.of_append hall (List.cons_ne_nil c _) hmark)⟩
      omega

theorem DecimalForm.read?_text (d : DecimalForm) (negative : Bool) :
    Binary64.read? (String.ofList (if negative then '-' :: d.text else d.text)) =
      some (.ofDecimal negative d.digits d.exponent) := by
  obtain ⟨n, zeros, k, e, hdigits, he, hnum⟩ := numeral_text d
  rw [hnum.read? negative, hdigits, Binary64.ofDecimal_mul_pow, Binary64.ofDecimal_mul_pow, he]

namespace Binary64

theorem canonical_read? {text : String} {x : Binary64} (h : read? text = some x) : x.Canonical := by
  have hspecial : ∀ negative s, special? negative s = some x → x.Canonical := by
    intro negative s hs
    unfold special? at hs
    split at hs <;> cases hs <;> trivial
  have hunsigned : ∀ negative s, unsigned? negative s = some x → x.Canonical := by
    intro negative s hs
    unfold unsigned? at hs
    dsimp only at hs
    split at hs
    all_goals
      dsimp only at hs
      split at hs
      · cases hs
      · obtain ⟨e, -, rfl⟩ := Option.map_eq_some_iff.mp hs
        exact canonical_ofDecimal _ _ _
  unfold read? at h
  obtain ⟨cs, -, h⟩ := Option.bind_eq_some_iff.mp h
  exact ((Option.orElse_eq_some _ _ _).mp h).elim (hspecial _ _) fun h => hunsigned _ _ h.2

theorem read?_text {x : Binary64} (h : x.Canonical) : read? x.text = some x := by
  cases x with
  | nan => decide +kernel
  | infinite negative => cases negative <;> decide +kernel
  | finite negative m e =>
    rw [text]
    by_cases hm : m = 0
    · have he : e = minExponent := h.2.2.2.resolve_left (by rw [hm]; decide)
      have hzero : AllDigits ['0'] := allDigits_zeros 1
      have hnum := Numeral.point hzero (by decide) hzero (.inl ⟨rfl, rfl⟩)
      rw [if_pos hm]
      refine (hnum.read? negative).trans ?_
      rw [hm, he]
      exact congrArg some (ofDecimal_zero negative _)
    · rw [if_neg hm, (shortestDecimal m e).read?_text negative, ofDecimal_shortestDecimal h hm]

end Binary64

end Overseer.Number
