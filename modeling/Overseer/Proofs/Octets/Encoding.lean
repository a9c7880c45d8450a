import Overseer.Proofs.Octets.Decoding

/-!
# Text as bytes

A text is written one character after another (`Utf8.encode`). Whoever reads the bytes one at a time
finds the characters again, each as soon as its last byte has come (`Utf8.scan_encode`). So a text
that has been written is read as it was, whatever is done with malformed bytes
(`Handler.decode_encode`).
-/

namespace Overseer.Octets

theorem Encoding.scan_cons (encoding : Encoding) (pending : List UInt8) (b : UInt8)
    (bytes : List UInt8) :
    encoding.scan pending (b :: bytes) =
      ((encoding.step pending b).1.toArray ++ (encoding.scan (encoding.step pending b).2 bytes).1,
        (encoding.scan (encoding.step pending b).2 bytes).2) := by
  have hone : encoding.scan pending [b] =
      ((encoding.step pending b).1.toArray, (encoding.step pending b).2) := by
    simp [scan, scanByte]
  have hcons := encoding.scan_append pending [b] bytes
  rwa [hone] at hcons

namespace Utf8

def encode (text : List Char) : List UInt8 := text.flatMap String.utf8EncodeChar

def IsTail (b : UInt8) : Prop := 0x80 ≤ b.toNat ∧ b.toNat ≤ 0xbf

variable {first second third b : UInt8}

theorem following?_eq_one (hlow : 0xc2 ≤ first.toNat) (hhigh : first.toNat ≤ 0xdf) :
    following? first = some 1 := by
  simp [following?, UInt8.le_iff_toNat_le, hlow, hhigh]

theorem following?_eq_two (hlow : 0xe0 ≤ first.toNat) (hhigh : first.toNat ≤ 0xef) :
    following? first = some 2 := by
  have hone : ¬ first.toNat ≤ 0xdf := by omega
  simp [following?, UInt8.le_iff_toNat_le, hone, hlow, hhigh]

theorem following?_eq_three (hlow : 0xf0 ≤ first.toNat) (hhigh : first.toNat ≤ 0xf4) :
    following? first = some 3 := by
  have hone : ¬ first.toNat ≤ 0xdf := by omega
  have htwo : ¬ first.toNat ≤ 0xef := by omega
  simp [following?, UInt8.le_iff_toNat_le, hone, htwo, hlow, hhigh]

theorem step_start {count : Nat} (h : following? b = some count) : step [] b = ([], [b]) := by
  have hlt : ¬ b < 0x80 := by
    intro hlt
    simp only [UInt8.lt_iff_toNat_lt, UInt8.reduceToNat] at hlt
    have hlow : ∀ n, 128 ≤ n → ¬ n ≤ b.toNat := fun n hn => by omega
    have hnone : following? b = none := by simp [following?, UInt8.le_iff_toNat_le, hlow]
    cases hnone.symm.trans h
  simp [step, start, hlt, h]

theorem continues_first (hb : IsTail b) (he0 : first.toNat = 0xe0 → 0xa0 ≤ b.toNat)
    (hed : first.toNat = 0xed → b.toNat ≤ 0x9f) (hf0 : first.toNat = 0xf0 → 0x90 ≤ b.toNat)
    (hf4 : first.toNat = 0xf4 → b.toNat ≤ 0x8f) : continues [first] b = true := by
  obtain ⟨hlow, hhigh⟩ := hb
  change ((nextBounds [first]).1 ≤ b && b ≤ (nextBounds [first]).2) = true
  unfold nextBounds
  split <;> simp_all [UInt8.le_iff_toNat_le]

theorem continues_later (hb : IsTail b) (rest : List UInt8) :
    continues (first :: second :: rest) b = true := by
  obtain ⟨hlow, hhigh⟩ := hb
  simp [continues, nextBounds, UInt8.le_iff_toNat_le, hlow, hhigh]

theorem not_beginsSurrogate (h : continues [first] b = true) : beginsSurrogate first b = false := by
  by_cases he : first = 0xed
  · subst he
    simp [continues, nextBounds, beginsSurrogate, UInt8.le_iff_toNat_le] at h ⊢
    omega
  · simp [beginsSurrogate, he]

theorem step_second (h : continues [first] b = true) :
    step [first] b =
      if following? first = some 1 then ([complete [first, b]], []) else ([], [first, b]) := by
  simp [step, not_beginsSurrogate h, h]

theorem step_later {rest : List UInt8} (h : continues [first] second = true) (hb : IsTail b) :
    step (first :: second :: rest) b =
      if following? first = some (rest.length + 2) then
        ([complete (first :: second :: rest ++ [b])], [])
      else ([], first :: second :: rest ++ [b]) := by
  have hlength : some (rest.length + 1 + 1 + 1) = (following? first).map (· + 1) ↔
      following? first = some (rest.length + 2) := by
    cases following? first <;> simp [eq_comm]
  simp [step, not_beginsSurrogate h, continues_later hb, hlength]

theorem scan_nil (pending : List UInt8) : Encoding.utf8.scan pending [] = (#[], pending) := rfl

theorem scan_one (h : b < 0x80) : Encoding.utf8.scan [] [b] = (#[complete [b]], []) := by
  simp [Encoding.scan_cons, Encoding.step, scan_nil, step, start, h]

theorem scan_two (hfirst : following? first = some 1) (h : continues [first] second = true) :
    Encoding.utf8.scan [] [first, second] = (#[complete [first, second]], []) := by
  simp [Encoding.scan_cons, Encoding.step, scan_nil, step_start hfirst, step_second h, hfirst]

theorem scan_three (hfirst : following? first = some 2) (h : continues [first] second = true)
    (hthird : IsTail third) :
    Encoding.utf8.scan [] [first, second, third] = (#[complete [first, second, third]], []) := by
  simp [Encoding.scan_cons, Encoding.step, scan_nil, step_start hfirst, step_second h,
    step_later h hthird, hfirst]

theorem scan_four (hfirst : following? first = some 3) (h : continues [first] second = true)
    (hthird : IsTail third) (hb : IsTail b) :
    Encoding.utf8.scan [] [first, second, third, b] =
      (#[complete [first, second, third, b]], []) := by
  simp [Encoding.scan_cons, Encoding.step, scan_nil, step_start hfirst, step_second h,
    step_later h hthird, step_later h hb, hfirst]

theorem complete_eq {bytes : List UInt8} {c : Char} (h : codePoint bytes = c.toNat) :
    complete bytes = .char bytes c := by
  rw [complete, h, Char.ofNat_toNat]

/-- The bytes of a character are read as this character. The bounds of the second byte are met since
no character is a surrogate or lies beyond the last one, and none is written with more bytes than it
takes. -/
theorem scan_encodeChar (c : Char) :
    Encoding.utf8.scan [] (String.utf8EncodeChar c) =
      (#[.char (String.utf8EncodeChar c) c], []) := by
  have hvalid : c.toNat < 0xd800 ∨ 0xdfff < c.toNat ∧ c.toNat < 0x110000 := c.valid
  have hval : c.val.toNat = c.toNat := rfl
  unfold String.utf8EncodeChar
  simp only [hval]
  generalize hn : c.toNat = n at *
  -- one byte, two, three or four, as the size of the code point says
  split
  next hone =>
    have hb : UInt8.ofNat n < 0x80 := by
      simp [UInt8.lt_iff_toNat_lt]
      omega
    rw [scan_one hb, complete_eq]
    simp [codePoint]
    omega
  next hone =>
  split
  next htwo =>
    rw [scan_two, complete_eq]
    · simp [codePoint]
      omega
    · apply following?_eq_one <;> simp <;> omega
    · apply continues_first <;> simp [IsTail] <;> omega
  next htwo =>
  split
  next hthree =>
    rw [scan_three, complete_eq]
    · simp [codePoint]
      omega
    · apply following?_eq_two <;> simp <;> omega
    · apply continues_first <;> simp [IsTail] <;> omega
    · simp [IsTail]
      omega
  next hthree =>
    rw [scan_four, complete_eq]
    · simp [codePoint]
      omega
    · apply following?_eq_three <;> simp <;> omega
    · apply continues_first <;> simp [IsTail] <;> omega
    · simp [IsTail]
      omega
    · simp [IsTail]
      omega

theorem scan_encode (text : List Char) :
    Encoding.utf8.scan [] (encode text) =
      ((text.map fun c => Piece.char (String.utf8EncodeChar c) c).toArray, []) := by
  induction text with
  | nil => rfl
  | cons c text ih =>
    have hcons : encode (c :: text) = String.utf8EncodeChar c ++ encode text := List.flatMap_cons
    rw [hcons, Encoding.scan_append, scan_encodeChar, ih]
    simp

end Utf8

theorem Handler.decode_encode (handler : Handler) (text : List Char) :
    handler.decode .utf8 (Utf8.encode text) = .ok text := by
  have hrenders :
      handler.Renders (text.map fun c => Piece.char (String.utf8EncodeChar c) c) text := by
    induction text with
    | nil => exact .nil
    | cons c text ih =>
      have hc : handler.render? (.char (String.utf8EncodeChar c) c) = some [c] := rfl
      exact .cons hc ih
  rw [decode, Encoding.pieces, Utf8.scan_encode, text_eq_ok_iff]
  simpa [atEnd, Utf8.abandon] using hrenders

end Overseer.Octets
