import Mathlib.Data.List.Basic
import Overseer.Octets.Decoder

/-!
# Decoding as a whole

A stream decoded in chunks comes to the same text as the stream decoded at once. What a handler
makes of a piece does not depend on where the piece stands; only the refusal of a strict handler
names a position. So a text is the concatenation of what its pieces stand for (`text_eq_ok_iff`),
and a stream that can be decoded as a whole can be decoded chunk by chunk. -/

namespace Overseer.Octets

def Encoding.pieces (encoding : Encoding) (bytes : List UInt8) : Array Piece :=
  (encoding.scan [] bytes).1 ++ atEnd (encoding.scan [] bytes).2

def Handler.decode (handler : Handler) (encoding : Encoding) (bytes : List UInt8) :
    Except DecodeError (List Char) :=
  handler.text encoding (encoding.pieces bytes)

def Handler.decodeSoFar (handler : Handler) (encoding : Encoding) (bytes : List UInt8) :
    Except DecodeError (List Char) :=
  handler.text encoding (encoding.scan [] bytes).1

def Handler.render? (handler : Handler) : Piece → Option (List Char)
  | .char _ c => some [c]
  | .malformed bytes fault => (handler.resolve .utf8 0 bytes fault).toOption

def Handler.Lenient (handler : Handler) : Prop :=
  handler = .ignore ∨ handler = .replace ∨ handler = .escape

theorem Handler.resolve_eq_ok_iff (handler : Handler) (encoding : Encoding) (position : Nat)
    (bytes : List UInt8) (fault : Fault) (text : List Char) :
    handler.resolve encoding position bytes fault = .ok text ↔
      handler.render? (.malformed bytes fault) = some text := by
  cases handler <;> simp [resolve, render?, Except.toOption]

theorem Handler.extend_eq_ok_iff (handler : Handler) (encoding : Encoding) (text after : Array Char)
    (position next : Nat) (piece : Piece) :
    handler.extend encoding (text, position) piece = .ok (after, next) ↔
      next = position + piece.bytes.length ∧
        ∃ cs, handler.render? piece = some cs ∧ after.toList = text.toList ++ cs := by
  cases piece with
  | char bytes c =>
    simp only [extend, Except.ok.injEq, Prod.mk.injEq, render?, Option.some.injEq, Piece.bytes]
    constructor
    · rintro ⟨rfl, rfl⟩
      exact ⟨rfl, [c], rfl, by simp⟩
    · rintro ⟨rfl, cs, rfl, h⟩
      exact ⟨Array.ext' (by simpa using h.symm), rfl⟩
  | malformed bytes fault =>
    simp only [extend, Piece.bytes]
    cases hr : handler.resolve encoding position bytes fault with
    | error cause =>
      have hn : ∀ cs, handler.render? (.malformed bytes fault) ≠ some cs := fun cs h => by
        rw [← handler.resolve_eq_ok_iff encoding position, hr] at h
        cases h
      simp [bind, Except.bind, hn]
    | ok cs =>
      have hs := (handler.resolve_eq_ok_iff encoding position bytes fault cs).mp hr
      simp only [bind, Except.bind, pure, Except.pure, Except.ok.injEq, Prod.mk.injEq, hs,
        Option.some.injEq]
      constructor
      · rintro ⟨rfl, rfl⟩
        exact ⟨rfl, cs, rfl, by simp⟩
      · rintro ⟨rfl, _, rfl, h⟩
        exact ⟨Array.ext' (by simpa using h.symm), rfl⟩

inductive Handler.Renders (handler : Handler) : List Piece → List Char → Prop where
  | nil : Renders handler [] []
  | cons {piece pieces cs text} : handler.render? piece = some cs → Renders handler pieces text →
      Renders handler (piece :: pieces) (cs ++ text)

theorem Handler.Renders.append {handler : Handler} {ps qs : List Piece} {s t : List Char}
    (hp : handler.Renders ps s) (hq : handler.Renders qs t) :
    handler.Renders (ps ++ qs) (s ++ t) := by
  induction hp with
  | nil => exact hq
  | cons hr _ ih => rw [List.append_assoc]; exact .cons hr ih

theorem Handler.Renders.of_append {handler : Handler} {ps qs : List Piece} {text : List Char}
    (h : handler.Renders (ps ++ qs) text) :
    ∃ s t, handler.Renders ps s ∧ handler.Renders qs t ∧ text = s ++ t := by
  induction ps generalizing text with
  | nil => exact ⟨[], text, .nil, h, rfl⟩
  | cons p ps ih =>
    cases h with
    | @cons _ _ cs rest hr hrest =>
      obtain ⟨s, t, hs, ht, rfl⟩ := ih hrest
      exact ⟨cs ++ s, t, .cons hr hs, ht, by simp⟩

theorem Handler.Renders.unique {handler : Handler} {ps : List Piece} {s t : List Char}
    (hs : handler.Renders ps s) (ht : handler.Renders ps t) : s = t := by
  induction hs generalizing t with
  | nil => cases ht; rfl
  | cons hr _ ih =>
    cases ht with
    | cons hr' ht' =>
      obtain rfl := Option.some.inj (hr.symm.trans hr')
      rw [ih ht']

theorem Handler.foldlM_extend_eq_ok_iff (handler : Handler) (encoding : Encoding)
    (pieces : List Piece) (text after : Array Char) (position : Nat) :
    (∃ next, pieces.foldlM (handler.extend encoding) (text, position) = .ok (after, next)) ↔
      ∃ cs, handler.Renders pieces cs ∧ after.toList = text.toList ++ cs := by
  induction pieces generalizing text position with
  | nil =>
    constructor
    · rintro ⟨next, h⟩
      cases h
      exact ⟨[], .nil, by simp⟩
    · rintro ⟨cs, hcs, h⟩
      cases hcs
      obtain rfl : after = text := Array.ext' (by simpa using h)
      exact ⟨position, rfl⟩
  | cons piece pieces ih =>
    simp only [List.foldlM_cons]
    constructor
    · rintro ⟨next, h⟩
      cases he : handler.extend encoding (text, position) piece with
      | error cause => rw [he] at h; cases h
      | ok middle =>
        obtain ⟨-, cs, hcs, hm⟩ :=
          (handler.extend_eq_ok_iff encoding text middle.1 position middle.2 piece).mp he
        rw [he] at h
        obtain ⟨ds, hds, ha⟩ := (ih middle.1 middle.2).mp ⟨next, h⟩
        exact ⟨cs ++ ds, .cons hcs hds, by rw [ha, hm, List.append_assoc]⟩
    · rintro ⟨_, hr, h⟩
      cases hr with
      | @cons _ _ cs ds hcs hds =>
        have he : handler.extend encoding (text, position) piece =
            .ok ((text.toList ++ cs).toArray, position + piece.bytes.length) :=
          (handler.extend_eq_ok_iff encoding text _ position _ piece).mpr ⟨rfl, cs, hcs, rfl⟩
        rw [he]
        exact (ih _ _).mpr ⟨ds, hds, by simpa using h⟩

theorem Handler.text_eq_ok_iff (handler : Handler) (encoding : Encoding) (pieces : Array Piece)
    (text : List Char) :
    handler.text encoding pieces = .ok text ↔ handler.Renders pieces.toList text := by
  have h := handler.foldlM_extend_eq_ok_iff encoding pieces.toList #[] text.toArray 0
  simp only [List.nil_append, exists_eq_right'] at h
  rw [← h, Handler.text, ← Array.foldlM_toList]
  cases pieces.toList.foldlM (handler.extend encoding) (#[], 0) with
  | error cause => simp [bind, Except.bind]
  | ok result =>
    obtain ⟨result, position⟩ := result
    simp only [bind, Except.bind, pure, Except.pure, Except.ok.injEq, Prod.mk.injEq]
    constructor
    · rintro rfl
      exact ⟨position, by simp⟩
    · rintro ⟨_, rfl, -⟩
      simp

/-- The text of two runs of pieces is that of the first followed by that of the second. -/
theorem Handler.text_append_eq_ok_iff (handler : Handler) (encoding : Encoding)
    (first second : Array Piece) (text : List Char) :
    handler.text encoding (first ++ second) = .ok text ↔
      ∃ s t, handler.text encoding first = .ok s ∧ handler.text encoding second = .ok t ∧
        text = s ++ t := by
  simp only [text_eq_ok_iff, Array.toList_append]
  constructor
  · exact Handler.Renders.of_append
  · rintro ⟨s, t, hs, ht, rfl⟩
    exact hs.append ht

theorem Handler.decodeSoFar_of_decode_append {handler : Handler} {encoding : Encoding}
    {first second : List UInt8} {text : List Char}
    (h : handler.decode encoding (first ++ second) = .ok text) :
    ∃ s, handler.decodeSoFar encoding first = .ok s := by
  rw [Handler.decode, Encoding.pieces, Encoding.scan_append] at h
  obtain ⟨s, -, hs, -, -⟩ := (Handler.text_append_eq_ok_iff _ _ _ _ _).mp h
  obtain ⟨s, -, hs, -, -⟩ := (Handler.text_append_eq_ok_iff _ _ _ _ _).mp hs
  exact ⟨s, hs⟩

theorem Handler.Lenient.text {handler : Handler} (h : handler.Lenient) (encoding : Encoding)
    (pieces : Array Piece) : ∃ text, handler.text encoding pieces = .ok text := by
  simp only [text_eq_ok_iff]
  induction pieces.toList with
  | nil => exact ⟨[], .nil⟩
  | cons piece pieces ih =>
    obtain ⟨text, ht⟩ := ih
    have hr : ∃ cs, handler.render? piece = some cs := by
      cases piece with
      | char bytes c => exact ⟨[c], rfl⟩
      | malformed bytes fault =>
        rcases h with rfl | rfl | rfl <;> exact ⟨_, rfl⟩
    obtain ⟨cs, hcs⟩ := hr
    exact ⟨cs ++ text, .cons hcs ht⟩

namespace Decoder

variable {encoding : Encoding} {handler : Handler}

def after (encoding : Encoding) (handler : Handler) (bytes : List UInt8) : Decoder :=
  { encoding, handler, pending := (encoding.scan [] bytes).2 }

section

variable {d : Decoder} {pieces : Array Piece} {pending : List UInt8}

theorem take_of_text {text : List Char} (h : d.handler.text d.encoding pieces = .ok text) :
    d.take pieces pending = ({ d with pending }, .ok text) := by
  rw [take, h]

theorem take_of_refused {cause : DecodeError}
    (h : d.handler.text d.encoding pieces = .error cause) :
    d.take pieces pending = (d, .error cause) := by
  rw [take, h]

end

theorem feed_after {first second : List UInt8} {text : List Char}
    (h : handler.decodeSoFar encoding (first ++ second) = .ok text) :
    ∃ s t, handler.decodeSoFar encoding first = .ok s ∧ text = s ++ t ∧
      (after encoding handler first).feed second =
        (after encoding handler (first ++ second), .ok t) := by
  rw [Handler.decodeSoFar, Encoding.scan_append] at h
  obtain ⟨s, t, hs, ht, rfl⟩ := (Handler.text_append_eq_ok_iff _ _ _ _ _).mp h
  refine ⟨s, t, hs, rfl, ?_⟩
  rw [feed, take_of_text ht]
  simp [after, Encoding.scan_append]

theorem finish_after {bytes : List UInt8} {text : List Char}
    (h : handler.decode encoding bytes = .ok text) :
    ∃ s t, handler.decodeSoFar encoding bytes = .ok s ∧ text = s ++ t ∧
      (after encoding handler bytes).finish = (after encoding handler [], .ok t) := by
  obtain ⟨s, t, hs, ht, rfl⟩ := (Handler.text_append_eq_ok_iff _ _ _ _ _).mp h
  refine ⟨s, t, hs, rfl, ?_⟩
  rw [finish, take_of_text ht]
  rfl

end Decoder

end Overseer.Octets
