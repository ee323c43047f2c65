import SuiteMake.Text.Utf8

/-!
# Well-formed bytes

Bytes that can be read as text are the encoding of that text: no code point has two encodings.
-/

namespace SuiteMake.Utf8

theorem decodeFrom_last {low high value : Nat} {bs : Bytes}
    (h : none ∉ decodeFrom (.inside 0 low high value) bs) :
    ∃ b rest, bs = b :: rest ∧ (low ≤ b.toNat ∧ b.toNat ≤ high) ∧
      decodeFrom (.inside 0 low high value) bs =
        some (Char.ofNat (value * 64 + (b.toNat - 0x80))) :: decodeFrom .start rest := by
  cases bs with
  | nil => simp [decodeFrom] at h
  | cons b rest =>
      by_cases hb : low ≤ b.toNat ∧ b.toNat ≤ high
      · exact ⟨b, rest, rfl, hb, by rw [decodeFrom_cons, step_last hb, List.singleton_append]⟩
      · rw [decodeFrom_cons, step, if_neg hb] at h
        simp at h

theorem decodeFrom_more {more low high value : Nat} {bs : Bytes}
    (h : none ∉ decodeFrom (.inside (more + 1) low high value) bs) :
    ∃ b rest, bs = b :: rest ∧ (low ≤ b.toNat ∧ b.toNat ≤ high) ∧
      decodeFrom (.inside (more + 1) low high value) bs =
        decodeFrom (.inside more 0x80 0xBF (value * 64 + (b.toNat - 0x80))) rest := by
  cases bs with
  | nil => simp [decodeFrom] at h
  | cons b rest =>
      by_cases hb : low ≤ b.toNat ∧ b.toNat ≤ high
      · exact ⟨b, rest, rfl, hb, by rw [decodeFrom_cons, step_more hb, List.nil_append]⟩
      · rw [decodeFrom_cons, step, if_neg hb] at h
        simp at h

private theorem byte_eq {n : Nat} {b : UInt8} (h : n = b.toNat) : UInt8.ofNat n = b := by
  apply UInt8.toNat_inj.mp
  rw [UInt8.toNat_ofNat_of_lt' (h ▸ b.toNat_lt), h]

private theorem tail_eq {n : Nat} {b : UInt8} (h : 0x80 + n % 64 = b.toNat) : tail n = b :=
  byte_eq h

private theorem toNat_char {n : Nat} (h : n < 0xD800 ∨ 0xDFFF < n ∧ n < 0x110000) :
    (Char.ofNat n).toNat = n := by
  have hvalid : n.isValidChar := h
  rw [Char.ofNat, dif_pos hvalid]
  rfl

private theorem encodeChar_one {b : UInt8} (h : b.toNat < 0x80) :
    encodeChar (Char.ofNat b.toNat) = [b] := by
  rw [encodeChar, toNat_char (by omega), if_pos h, byte_eq rfl]

private theorem encodeChar_two {a b : UInt8} {n : Nat} (ha : 0xC2 ≤ a.toNat ∧ a.toNat < 0xE0)
    (hb : 0x80 ≤ b.toNat ∧ b.toNat ≤ 0xBF)
    (hn : n = (a.toNat - 0xC0) * 64 + (b.toNat - 0x80)) :
    encodeChar (Char.ofNat n) = [a, b] := by
  rw [encodeChar, toNat_char (by omega), if_neg (by omega), if_pos (by omega),
    byte_eq (b := a) (by omega), tail_eq (b := b) (by omega)]

private theorem encodeChar_three {a b c : UInt8} {n : Nat}
    (ha : 0xE0 ≤ a.toNat ∧ a.toNat < 0xF0)
    (hb : (if a.toNat = 0xE0 then 0xA0 else 0x80) ≤ b.toNat ∧
      b.toNat ≤ if a.toNat = 0xED then 0x9F else 0xBF)
    (hc : 0x80 ≤ c.toNat ∧ c.toNat ≤ 0xBF)
    (hn : n = ((a.toNat - 0xE0) * 64 + (b.toNat - 0x80)) * 64 + (c.toNat - 0x80)) :
    encodeChar (Char.ofNat n) = [a, b, c] := by
  have hlow : 0x80 ≤ b.toNat ∧ b.toNat ≤ 0xBF ∧ (a.toNat = 0xE0 → 0xA0 ≤ b.toNat) ∧
      (a.toNat = 0xED → b.toNat ≤ 0x9F) := by
    split at hb <;> split at hb <;> omega
  rw [encodeChar, toNat_char (by omega), if_neg (by omega), if_neg (by omega),
    if_pos (by omega), byte_eq (b := a) (by omega), tail_eq (b := b) (by omega),
    tail_eq (b := c) (by omega)]

private theorem encodeChar_four {a b c d : UInt8} {n : Nat}
    (ha : 0xF0 ≤ a.toNat ∧ a.toNat ≤ 0xF4)
    (hb : (if a.toNat = 0xF0 then 0x90 else 0x80) ≤ b.toNat ∧
      b.toNat ≤ if a.toNat = 0xF4 then 0x8F else 0xBF)
    (hc : 0x80 ≤ c.toNat ∧ c.toNat ≤ 0xBF) (hd : 0x80 ≤ d.toNat ∧ d.toNat ≤ 0xBF)
    (hn : n = (((a.toNat - 0xF0) * 64 + (b.toNat - 0x80)) * 64 + (c.toNat - 0x80)) * 64 +
      (d.toNat - 0x80)) :
    encodeChar (Char.ofNat n) = [a, b, c, d] := by
  have hlow : 0x80 ≤ b.toNat ∧ b.toNat ≤ 0xBF ∧ (a.toNat = 0xF0 → 0x90 ≤ b.toNat) ∧
      (a.toNat = 0xF4 → b.toNat ≤ 0x8F) := by
    split at hb <;> split at hb <;> omega
  rw [encodeChar, toNat_char (by omega), if_neg (by omega), if_neg (by omega),
    if_neg (by omega), byte_eq (b := a) (by omega), tail_eq (b := b) (by omega),
    tail_eq (b := c) (by omega), tail_eq (b := d) (by omega)]

/-- A sequence that is read without fault starts with the encoding of a character. -/
theorem exists_encodeChar {a : UInt8} {bs : Bytes} (h : none ∉ decodeFrom .start (a :: bs)) :
    ∃ c rest, a :: bs = encodeChar c ++ rest ∧
      decodeFrom .start (a :: bs) = some c :: decodeFrom .start rest := by
  rw [decodeFrom_cons, step] at h ⊢
  by_cases h1 : a.toNat < 0x80
  · rw [lead, if_pos h1]
    exact ⟨_, bs, by rw [encodeChar_one h1, List.singleton_append], rfl⟩
  by_cases h2 : a.toNat < 0xC2
  · rw [lead, if_neg h1, if_pos h2] at h
    simp at h
  by_cases h3 : a.toNat < 0xE0
  · rw [lead_two (by omega) h3, List.nil_append] at h ⊢
    obtain ⟨b, rest, rfl, hb, hd⟩ := decodeFrom_last h
    exact ⟨_, rest, by rw [encodeChar_two ⟨by omega, h3⟩ hb rfl]; rfl, hd⟩
  by_cases h4 : a.toNat < 0xF0
  · rw [lead_three (by omega) h4, List.nil_append] at h ⊢
    obtain ⟨b, rest, rfl, hb, hd⟩ := decodeFrom_more h
    rw [hd] at h ⊢
    obtain ⟨c, rest, rfl, hc, hd⟩ := decodeFrom_last h
    exact ⟨_, rest, by rw [encodeChar_three ⟨by omega, h4⟩ hb hc rfl]; rfl, hd⟩
  by_cases h5 : a.toNat ≤ 0xF4
  · rw [lead_four (by omega) h5, List.nil_append] at h ⊢
    obtain ⟨b, rest, rfl, hb, hd⟩ := decodeFrom_more h
    rw [hd] at h ⊢
    obtain ⟨c, rest, rfl, hc, hd⟩ := decodeFrom_more h
    rw [hd] at h ⊢
    obtain ⟨d, rest, rfl, hd', hd⟩ := decodeFrom_last h
    exact ⟨_, rest, by rw [encodeChar_four ⟨by omega, h5⟩ hb hc hd' rfl]; rfl, hd⟩
  · have hlead : lead a.toNat = ([none], .start) := by
      rw [lead, if_neg h1, if_neg h2, if_neg h3, if_neg (by omega), if_neg (by omega), if_neg h4,
        if_neg (by omega), if_neg (by omega), if_neg (by omega)]
    rw [hlead] at h
    simp at h

theorem decode?_eq_some_iff {bs : Bytes} {t : Text} :
    decode? bs = some t ↔ decodeFrom .start bs = t.map some := by
  rw [decode?]
  generalize decodeFrom .start bs = found
  induction found generalizing t with
  | nil =>
      cases t <;> simp
  | cons o found ih =>
      cases o with
      | none => cases t <;> simp
      | some c =>
          cases t with
          | nil => cases hm : found.mapM id <;> simp [hm]
          | cons d t =>
              simp only [List.mapM_cons, id_eq, Option.bind_eq_bind, Option.bind_some,
                Option.bind_eq_some_iff, Option.pure_def, Option.some.injEq, List.cons.injEq,
                List.map_cons, ← ih]
              constructor
              · rintro ⟨u, hu, rfl, rfl⟩
                exact ⟨rfl, hu⟩
              · rintro ⟨rfl, hu⟩
                exact ⟨t, hu, rfl, rfl⟩

theorem encode_of_decode? {bs : Bytes} {t : Text} (h : decode? bs = some t) : encode t = bs := by
  rw [decode?_eq_some_iff] at h
  induction t generalizing bs with
  | nil =>
      cases bs with
      | nil => rfl
      | cons b bs =>
          have hread : none ∉ decodeFrom .start (b :: bs) := by simp [h]
          obtain ⟨c, rest, -, hd⟩ := exists_encodeChar hread
          simp [hd] at h
  | cons c t ih =>
      cases bs with
      | nil => simp [decodeFrom] at h
      | cons b bs =>
          have hread : none ∉ decodeFrom .start (b :: bs) := by simp [h]
          obtain ⟨c', rest, he, hd⟩ := exists_encodeChar hread
          rw [hd, List.map_cons, List.cons.injEq, Option.some.injEq] at h
          obtain ⟨rfl, hrest⟩ := h
          rw [he, encode, List.flatMap_cons]
          exact congrArg _ (ih hrest)

theorem decode?_eq_some_iff_encode {bs : Bytes} {t : Text} :
    decode? bs = some t ↔ bs = encode t := by
  constructor
  · intro h
    exact (encode_of_decode? h).symm
  · rintro rfl
    exact decode?_encode t

end SuiteMake.Utf8
