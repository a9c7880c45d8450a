import Mathlib.Data.List.Infix
import Overseer.Pattern.Matching

/-!
# Texts in a line

Some terms say no more than that certain texts stand in a line. A text that is spelled out matches
where it stands (`run_spelled`, `run_following`), an optional term is tried before it is left out
(`run_optional`), and what may be of any length goes up to the end of the line (`run_rest`). So a
search comes to the first place at which the texts stand (`search_eq_from?`).
-/

namespace Overseer.Pattern

variable {text : Array Char} {c : Cursor} {k : Continuation}

/-- What a line holds from the first place on at which one of some texts stands. -/
def from? (words : List String) (line : String) : Option (List Char) :=
  line.toList.tails.find? fun rest => words.any (·.toList.isPrefixOf rest)

theorem any_isPrefixOf_iff {words : List String} {rest : List Char} :
    words.any (·.toList.isPrefixOf rest) = true ↔ ∃ word ∈ words, word.toList <+: rest := by
  simp only [List.any_eq_true, List.isPrefixOf_iff_prefix]

theorem exists_mem_pair_iff {P : String → Prop} {a b : String} :
    (∃ word ∈ [a, b], P word) ↔ P a ∨ P b := by
  simp only [List.exists_mem_cons_iff, List.not_mem_nil, false_and, exists_false, or_false]

theorem isSome_from?_iff {words : List String} {line : String} :
    (from? words line).isSome = true ↔ ∃ word ∈ words, word.toList <:+: line.toList := by
  rw [from?, List.find?_isSome]
  constructor
  · rintro ⟨rest, hrest, hstands⟩
    obtain ⟨word, hword, hprefix⟩ := any_isPrefixOf_iff.mp hstands
    exact ⟨word, hword, List.infix_iff_prefix_suffix.mpr
      ⟨rest, hprefix, (List.mem_tails rest _).mp hrest⟩⟩
  · rintro ⟨word, hword, hinfix⟩
    obtain ⟨rest, hprefix, hsuffix⟩ := List.infix_iff_prefix_suffix.mp hinfix
    exact ⟨rest, (List.mem_tails rest _).mpr hsuffix, any_isPrefixOf_iff.mpr ⟨word, hword, hprefix⟩⟩

theorem find?_tails_eq_some_iff {holds : List Char → Bool} {cs rest : List Char} :
    cs.tails.find? holds = some rest ↔ ∃ start, cs = start ++ rest ∧ holds rest = true ∧
      ∀ before more, cs = before ++ more → before.length < start.length → holds more = false := by
  induction cs with
  | nil =>
    rw [List.tails, List.find?_singleton]
    constructor
    · intro h
      obtain ⟨hholds, hrest⟩ := Option.ite_none_right_eq_some.mp h
      obtain rfl := Option.some.inj hrest
      exact ⟨[], rfl, hholds, nofun⟩
    · rintro ⟨start, hcs, hholds, -⟩
      obtain ⟨rfl, rfl⟩ := List.append_eq_nil_iff.mp hcs.symm
      exact if_pos hholds
  | cons x cs ih =>
    rw [List.tails_cons, List.find?_cons]
    cases hx : holds (x :: cs) with
    | true =>
      constructor
      · rintro ⟨⟩
        exact ⟨[], rfl, hx, nofun⟩
      · rintro ⟨start, hcs, -, hfirst⟩
        -- the whole list holds, so no later tail can be the first
        cases start with
        | nil => exact congrArg some hcs
        | cons y start => cases hx.symm.trans (hfirst [] (x :: cs) rfl (Nat.succ_pos _))
    | false =>
      dsimp only
      rw [ih]
      constructor
      · rintro ⟨start, rfl, hholds, hfirst⟩
        refine ⟨x :: start, rfl, hholds, fun before more hmore hlt => ?_⟩
        cases before with
        | nil =>
          obtain rfl := hmore
          exact hx
        | cons y before =>
          exact hfirst before more (List.cons.inj hmore).2 (Nat.lt_of_succ_lt_succ hlt)
      · rintro ⟨start, hcs, hholds, hfirst⟩
        cases start with
        | nil =>
          obtain rfl := hcs
          cases hx.symm.trans hholds
        | cons y start =>
          obtain ⟨rfl, htail⟩ := List.cons.inj hcs
          exact ⟨start, htail, hholds, fun before more hmore hlt =>
            hfirst (x :: before) more (congrArg (x :: ·) hmore) (Nat.succ_lt_succ hlt)⟩

/-- What a line holds from the first place on at which one of some texts stands. -/
theorem from?_eq_some_iff {words : List String} {line : String} {rest : List Char} :
    from? words line = some rest ↔ ∃ start, line.toList = start ++ rest ∧
      (∃ word ∈ words, word.toList <+: rest) ∧ ∀ before more, line.toList = before ++ more →
        before.length < start.length → ∀ word ∈ words, ¬ word.toList <+: more := by
  rw [from?, find?_tails_eq_some_iff]
  simp only [List.any_eq_true, List.any_eq_false, List.isPrefixOf_iff_prefix]

theorem tails_eq_map_drop (cs : List Char) :
    cs.tails = (List.range (cs.length + 1)).map (cs.drop ·) := by
  induction cs with
  | nil => rfl
  | cons x cs ih =>
    rw [List.tails_cons, ih, List.length_cons, List.range_succ_eq_map (n := cs.length + 1)]
    simp [Function.comp_def]

theorem prefix_append_iff {xs ys cs : List Char} :
    xs ++ ys <+: cs ↔ xs <+: cs ∧ ys <+: cs.drop xs.length := by
  constructor
  · rintro ⟨more, rfl⟩
    refine ⟨⟨ys ++ more, (List.append_assoc ..).symm⟩, ⟨more, ?_⟩⟩
    rw [List.append_assoc, List.drop_left]
  · rintro ⟨⟨more, rfl⟩, hys⟩
    rw [List.drop_left] at hys
    exact (List.prefix_append_right_inj xs).mpr hys

def Term.following (cs : List Char) (rest : Term) : Term :=
  cs.foldr (fun x rest => .seq (.char false x.toNat) rest) rest

def Term.spelled : List Char → Term
  | [] => .empty
  | [x] => .char false x.toNat
  | x :: y :: cs => .seq (.char false x.toNat) (Term.spelled (y :: cs))

theorem run_char (text : Array Char) (x : Char) (c : Cursor) (k : Continuation) :
    (Term.char false x.toNat).run text c k =
      if [x] <+: text.toList.drop c.pos then k { c with pos := c.pos + 1 } else none := by
  have hholds : ∀ y : Char, charHolds false x.toNat y = true ↔ x = y := by
    intro y
    rw [charHolds, Bool.false_and, Bool.false_and, Bool.or_false, beq_iff_eq, Char.toNat_inj]
    exact eq_comm
  rw [Term.run, oneChar]
  by_cases hlt : c.pos < text.size
  · rw [Array.getElem?_eq_getElem hlt, List.drop_eq_getElem_cons (by simpa using hlt)]
    simp [hholds]
  · rw [Array.getElem?_eq_none (Nat.le_of_not_lt hlt), List.drop_eq_nil_of_le (by simpa using hlt)]
    simp

theorem run_following (cs : List Char) (rest : Term) (c : Cursor) :
    (Term.following cs rest).run text c k =
      if cs <+: text.toList.drop c.pos then rest.run text { c with pos := c.pos + cs.length } k
      else none := by
  induction cs generalizing c with
  | nil => simp [Term.following]
  | cons x cs ih =>
    have hsplit : x :: cs <+: text.toList.drop c.pos ↔
        [x] <+: text.toList.drop c.pos ∧ cs <+: text.toList.drop (c.pos + 1) := by
      rw [← List.singleton_append, prefix_append_iff, List.drop_drop, List.length_singleton]
    change (Term.char false x.toNat).run text c
      (fun d => (Term.following cs rest).run text d k) = _
    rw [run_char, ih]
    simp only [hsplit, List.length_cons, ite_and, Nat.add_assoc, Nat.add_comm 1]

theorem run_spelled (cs : List Char) (c : Cursor) :
    (Term.spelled cs).run text c k =
      if cs <+: text.toList.drop c.pos then k { c with pos := c.pos + cs.length } else none := by
  have hfollowing : (Term.spelled cs).run text c k = (Term.following cs .empty).run text c k := by
    induction cs generalizing c with
    | nil => rfl
    | cons x cs ih =>
      cases cs with
      | nil => rfl
      | cons y cs =>
        change (Term.char false x.toNat).run text c
            (fun d => (Term.spelled (y :: cs)).run text d k) =
          (Term.char false x.toNat).run text c
            (fun d => (Term.following (y :: cs) .empty).run text d k)
        exact congrArg _ (funext ih)
  rw [hfollowing, run_following]
  rfl

theorem ite_or_ite {p q : Prop} [Decidable p] [Decidable q] {α : Type} (o : Option α) :
    (if p then o else none).or (if q then o else none) = if p ∨ q then o else none := by
  by_cases hp : p <;> by_cases hq : q <;> simp [hp, hq]

theorem run_alt (left right : Term) (c : Cursor) :
    (Term.alt left right).run text c k = (left.run text c k).or (right.run text c k) := by
  cases hleft : left.run text c k with
  | some found => simp only [Term.run, hleft, Option.some_or]
  | none => simp only [Term.run, hleft, Option.none_or]

/-- What may be there or not is taken if what comes after it allows that. -/
theorem run_optional (body : Term) (c : Cursor) :
    (Term.rep .greedy 0 (some 1) body).run text c k = (body.run text c k).or (k c) := by
  have hlast : ∀ fuel last, greedyRounds (body.run text) 0 (some 1) k fuel 1 last = k := by
    intro fuel last
    cases fuel with
    | zero => rfl
    | succ fuel => rfl
  change greedyRounds (body.run text) 0 (some 1) k (roundBound text 0) 0 none c = _
  unfold roundBound greedyRounds
  simp only [hlast]
  cases body.run text c k with
  | some found => rfl
  | none => rfl

theorem greedyRounds_any {fuel count : Nat} {last : Option Nat}
    (hfree : '\n' ∉ text.toList.drop c.pos) (hle : c.pos ≤ text.size)
    (hk : (k { c with pos := text.size }).isSome = true) (hfuel : text.size < fuel + c.pos)
    (hlast : last ≠ some c.pos) :
    greedyRounds ((Term.any false).run text) 0 none k fuel count last c =
      k { c with pos := text.size } := by
  induction fuel generalizing c count last with
  | zero => omega
  | succ fuel ih =>
    have hgo : (last != some c.pos) = true := by simpa using hlast
    rw [greedyRounds, if_neg (Nat.not_lt_zero count), hgo]
    by_cases hlt : c.pos < text.size
    · -- one more character, and then the others
      rw [List.drop_eq_getElem_cons (by simpa using hlt)] at hfree
      obtain ⟨hne, hfree⟩ := not_or.mp (fun h => hfree (List.mem_cons.mpr h))
      have hround : (Term.any false).run text c
          (greedyRounds ((Term.any false).run text) 0 none k fuel (count + 1) (some c.pos)) =
          k { c with pos := text.size } := by
        rw [Term.run, oneChar, Array.getElem?_eq_getElem hlt]
        have hholds : (false || text[c.pos] != '\n') = true := by
          simpa using fun h => hne (by simpa using h.symm)
        dsimp only
        rw [if_pos hholds]
        exact ih hfree hlt hk (by dsimp only; omega) (by simp)
      obtain ⟨found, hfound⟩ := Option.isSome_iff_exists.mp hk
      rw [hround, hfound]
      rfl
    · have hround : ∀ next, (Term.any false).run text c next = none := by
        intro next
        rw [Term.run, oneChar, Array.getElem?_eq_none (Nat.le_of_not_lt hlt)]
      have hend : c = { c with pos := text.size } := by
        rw [← Nat.le_antisymm hle (Nat.le_of_not_lt hlt)]
      rw [hround, ← hend]
      rfl

/-- What may be of any length takes the rest of a line, if that is a match. -/
theorem run_rest (hfree : '\n' ∉ text.toList.drop c.pos) (hle : c.pos ≤ text.size)
    (hk : (k { c with pos := text.size }).isSome = true) :
    (Term.rep .greedy 0 none (.any false)).run text c k = k { c with pos := text.size } :=
  greedyRounds_any hfree hle hk (by unfold roundBound; omega) nofun

theorem run_following_rest {cs : List Char} (hcs : cs ≠ [])
    (hfree : '\n' ∉ text.toList.drop c.pos) (hk : (k { c with pos := text.size }).isSome = true) :
    (Term.following cs (.rep .greedy 0 none (.any false))).run text c k =
      if cs <+: text.toList.drop c.pos then k { c with pos := text.size } else none := by
  rw [run_following]
  split
  next hprefix =>
    have hfits : cs.length ≤ text.size - c.pos := by simpa using hprefix.length_le
    have hpos := List.length_pos_iff.mpr hcs
    refine run_rest (fun hm => hfree ?_) (by dsimp only; omega) hk
    rw [← List.drop_drop] at hm
    exact List.mem_of_mem_drop hm
  · rfl

/-- Where a match begins with one of some texts, a search ends at the first place of them. -/
theorem search_eq_from? {γ : Type} {p : Compiled} {words : List String} {line : String}
    {read : Match → γ} {found : List Char → γ}
    (h : ∀ i ≤ line.toList.length, (p.matchAt line.toList.toArray i).map read =
      if words.any (·.toList.isPrefixOf (line.toList.drop i)) then
        some (found (line.toList.drop i)) else none) :
    (p.search line).map read = (from? words line).map found := by
  have hall : ∀ is : List Nat, (∀ i ∈ is, i ≤ line.toList.length) →
      (is.findSome? (p.matchAt line.toList.toArray)).map read =
        ((is.map (line.toList.drop ·)).find? fun rest =>
          words.any (·.toList.isPrefixOf rest)).map found := by
    intro is hle
    induction is with
    | nil => rfl
    | cons i is ih =>
      have hi := h i (hle i List.mem_cons_self)
      rw [List.findSome?_cons, List.map_cons, List.find?_cons]
      cases hw : words.any (·.toList.isPrefixOf (line.toList.drop i)) with
      | true =>
        rw [hw, if_pos rfl] at hi
        obtain ⟨m, hm, hread⟩ := Option.map_eq_some_iff.mp hi
        rw [hm]
        exact congrArg some hread
      | false =>
        rw [hw, if_neg Bool.false_ne_true] at hi
        rw [Option.map_eq_none_iff.mp hi]
        exact ih fun j hj => hle j (List.mem_cons_of_mem i hj)
  rw [from?, tails_eq_map_drop]
  exact hall _ fun i hi => Nat.le_of_lt_succ (List.mem_range.mp hi)

end Overseer.Pattern
