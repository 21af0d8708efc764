import ContentPreview.Proofs.Text.LossyReading
import ContentPreview.Text.Encoding

/-!
# Percent encoding reads back

An encoded text is made of plain characters and of percent signs with two digits behind
them.  Since the percent sign is not plain, each byte is read back from what was written
for it, whatever follows, and so the bytes of any text are.

## Main definitions

* `IsPlainChar`, `IsHexDigit` — the characters of an encoded text.
* `IsEncoded` — the texts that encoding can produce.

## Main results

* `decode_encodeByte`, `decode_encode` — what is read back.
* `encode_injective` — different texts are encoded differently.
* `isEncoded_encode`, `IsEncoded.mem` — which characters are used.
-/

namespace ContentPreview.Text.Percent

/-- ASCII letters and digits, the four marks and the separator. -/
def IsPlainChar (c : Char) : Prop := c.isAlphanum = true ∨ c ∈ ['-', '.', '_', '~', '/']
deriving Decidable

/-- The digits of base sixteen, in capitals. -/
def IsHexDigit (c : Char) : Prop := c.isDigit = true ∨ 'A' ≤ c ∧ c ≤ 'F'

/-- The text consists of plain characters and of percent signs with two digits behind each. -/
inductive IsEncoded : List Char → Prop where
  | nil : IsEncoded []
  | plain {c : Char} {rest : List Char} (hc : IsPlainChar c) (h : IsEncoded rest) :
      IsEncoded (c :: rest)
  | escape {high low : Char} {rest : List Char} (hhigh : IsHexDigit high) (hlow : IsHexDigit low)
      (h : IsEncoded rest) : IsEncoded ('%' :: high :: low :: rest)

/-! ## Digits -/

theorem hexValue?_capitalHexDigit {n : Nat} (h : n < 16) :
    hexValue? (capitalHexDigit n) = some n := by
  revert n
  decide

theorem isHexDigit_capitalHexDigit {n : Nat} (h : n < 16) : IsHexDigit (capitalHexDigit n) := by
  unfold IsHexDigit
  revert n
  decide

/-! ## One byte -/

theorem isPlainChar_of_isPlain {b : UInt8} (h : isPlain b = true) :
    IsPlainChar (Char.ofNat b.toNat) := by
  simp only [isPlain, Bool.and_eq_true, Bool.or_eq_true, beq_iff_eq] at h
  simp only [IsPlainChar, List.mem_cons, List.not_mem_nil, or_false]
  simpa only [or_assoc] using h.2

theorem width_of_isPlain {b : UInt8} (h : isPlain b = true) : Utf8.width b = 1 := by
  simp only [isPlain, Bool.and_eq_true, decide_eq_true_eq] at h
  exact if_pos h.1

/-- The percent sign is not plain, so it always announces two digits. -/
theorem ne_percent_of_isPlainChar {c : Char} (h : IsPlainChar c) : c ≠ '%' := by
  rintro rfl
  revert h
  unfold IsPlainChar
  decide

theorem decode_cons_of_ne {c : Char} (hc : c ≠ '%') (rest : List Char) :
    decode (c :: rest) = String.utf8EncodeChar c ++ decode rest := by
  rw [decode]
  rintro a b rest rfl
  exact absurd rfl hc

theorem decode_escape {high low : Char} {m n : Nat} (hm : hexValue? high = some m)
    (hn : hexValue? low = some n) (rest : List Char) :
    decode ('%' :: high :: low :: rest) = UInt8.ofNat (16 * m + n) :: decode rest := by
  rw [decode, hm, hn]

/-- A byte is read back, whatever follows. -/
theorem decode_encodeByte (b : UInt8) (rest : List Char) :
    decode (encodeByte b ++ rest) = b :: decode rest := by
  unfold encodeByte
  cases hplain : isPlain b with
  | true =>
      have hne := ne_percent_of_isPlainChar (isPlainChar_of_isPlain hplain)
      rw [if_pos rfl, List.singleton_append, decode_cons_of_ne hne,
        Utf8.encode_char1 (width_of_isPlain hplain), List.singleton_append]
  | false =>
      have hb : b.toNat < 256 := b.toNat_lt
      have hvalue : UInt8.ofNat (16 * (b.toNat / 16) + b.toNat % 16) = b := by
        rw [Nat.div_add_mod, UInt8.ofNat_toNat]
      rw [if_neg (by simp)]
      exact (decode_escape (hexValue?_capitalHexDigit (by omega))
        (hexValue?_capitalHexDigit (by omega)) rest).trans (by rw [hvalue])

theorem isEncoded_encodeByte_append (b : UInt8) {rest : List Char} (h : IsEncoded rest) :
    IsEncoded (encodeByte b ++ rest) := by
  unfold encodeByte
  cases hplain : isPlain b with
  | true => exact .plain (isPlainChar_of_isPlain hplain) h
  | false =>
      have hb : b.toNat < 256 := b.toNat_lt
      exact .escape (isHexDigit_capitalHexDigit (by omega))
        (isHexDigit_capitalHexDigit (by omega)) h

/-! ## A text -/

theorem decode_flatMap_encodeByte (bytes : List UInt8) :
    decode (bytes.flatMap encodeByte) = bytes := by
  induction bytes with
  | nil => rfl
  | cons b rest ih => rw [List.flatMap_cons, decode_encodeByte, ih]

/-- Decoding gives back the bytes of a text. -/
theorem decode_encode (text : String) : decode (encode text) = text.toByteArray.data.toList := by
  have hbytes : Utf8.encode text = text.toByteArray.data.toList := by
    rw [← String.utf8Encode_toList, List.utf8Encode, List.data_toByteArray]
    rfl
  rw [← hbytes]
  exact decode_flatMap_encodeByte (Utf8.encode text)

theorem encode_injective {text text' : String} (h : encode text = encode text') :
    text = text' := by
  have hbytes : text.toByteArray.data.toList = text'.toByteArray.data.toList := by
    rw [← decode_encode, ← decode_encode, h]
  exact String.toByteArray_inj.1 (ByteArray.ext (Array.toList_inj.1 hbytes))

theorem isEncoded_encode (text : String) : IsEncoded (encode text) := by
  unfold encode
  induction Utf8.encode text with
  | nil => exact .nil
  | cons b rest ih => exact isEncoded_encodeByte_append b ih

theorem isPlainChar_of_isHexDigit {c : Char} (h : IsHexDigit c) : IsPlainChar c := by
  left
  show (c.isUpper || c.isLower || c.isDigit) = true
  rcases h with hdigit | ⟨hA, hF⟩
  · rw [hdigit, Bool.or_true]
  · have hupper : c.isUpper = true := decide_eq_true ⟨hA, Char.le_trans hF (by decide)⟩
    rw [hupper]
    rfl

/-- Only plain characters and percent signs are used. -/
theorem IsEncoded.mem {cs : List Char} (h : IsEncoded cs) {c : Char} (hc : c ∈ cs) :
    IsPlainChar c ∨ c = '%' := by
  induction h with
  | nil => cases hc
  | plain hplain _ ih =>
      rcases List.mem_cons.1 hc with rfl | hrest
      · exact Or.inl hplain
      · exact ih hrest
  | escape hhigh hlow _ ih =>
      simp only [List.mem_cons] at hc
      rcases hc with rfl | rfl | rfl | hrest
      · exact Or.inr rfl
      · exact Or.inl (isPlainChar_of_isHexDigit hhigh)
      · exact Or.inl (isPlainChar_of_isHexDigit hlow)
      · exact ih hrest

theorem not_mem_encode {c : Char} (hc : ¬ IsPlainChar c ∧ c ≠ '%') (text : String) :
    c ∉ encode text := by
  intro h
  exact ((isEncoded_encode text).mem h).elim hc.1 hc.2

end ContentPreview.Text.Percent
