import ContentPreview.Text.Cut
import ContentPreview.Text.Numeral
import Mathlib.Data.List.Induction

/-!
# Numbers through text

A numeral is one decimal digit or more, where each further one is added to ten times the
number in front of it, with at most one plus sign before them.  The reader takes exactly
the numerals whose value is in range, with any number of leading zeros.  The cut at both
ends of a text leaves what stands between its blanks.

A 64-bit number survives being written in decimal and read back, with the
blanks at both ends cut off on the way: the digits hold no blank, no plus sign
is written, and the value is in range because it came from a word.

## Main definitions

* `IsDecimal`, `IsNumeral` — digits and numerals with the numbers they stand for.
* `IsTrimmed` — a text without the blanks at its two ends.

## Main results

* `readUInt64_eq_some_iff` — a word is read from its numerals, and from nothing else.
* `trim_eq_iff` — what is left when blanks are cut off.
* `readUInt64_trim_decimal` — a written number is read back.
* `decimal_injective` — different numbers are written differently.
* `not_mem_decimal` — a character that is no digit does not occur in a written
  number.
-/

namespace ContentPreview.Text

/-- Decimal digits and the number that they stand for. -/
inductive IsDecimal : List Char → Nat → Prop
  | digit {c : Char} (h : c.isDigit = true) : IsDecimal [c] (digitValue c)
  | push {digits : List Char} {n : Nat} {c : Char} (front : IsDecimal digits n)
      (h : c.isDigit = true) : IsDecimal (digits ++ [c]) (10 * n + digitValue c)

/-- Decimal digits, with or without a plus sign in front of them. -/
inductive IsNumeral : List Char → Nat → Prop
  | plain {digits : List Char} {n : Nat} (h : IsDecimal digits n) : IsNumeral digits n
  | signed {digits : List Char} {n : Nat} (h : IsDecimal digits n) : IsNumeral ('+' :: digits) n

/-- The text consists of `core` and blanks around it, and `core` has no blank at its ends. -/
structure IsTrimmed (text core : List Char) : Prop where
  blanks : ∃ left right, text = left ++ core ++ right ∧
    ∀ c ∈ left ++ right, isBlank c = true
  head : ∀ c ∈ core.head?, isBlank c = false
  last : ∀ c ∈ core.getLast?, isBlank c = false

/-! ## Blanks -/

theorem isBlank_of_isDigit {c : Char} (h : c.isDigit = true) : isBlank c = false := by
  have hrange : 48 ≤ c.toNat ∧ c.toNat ≤ 57 := Char.isDigit_iff_toNat.1 h
  simp only [isBlank, Bool.or_eq_false_iff, Bool.and_eq_false_iff, decide_eq_false_iff_not,
    beq_eq_false_iff_ne]
  omega

/-- A run of characters of a class is dropped up to the first that is not of it. -/
theorem dropWhile_append_eq {p : Char → Bool} {front rest : List Char}
    (hfront : ∀ c ∈ front, p c = true) (hrest : ∀ c ∈ rest.head?, p c = false) :
    (front ++ rest).dropWhile p = rest := by
  rw [List.dropWhile_append_of_pos hfront]
  cases rest with
  | nil => rfl
  | cons c rest => exact List.dropWhile_cons_of_neg (by simp [hrest c rfl])

theorem IsTrimmed.trim_eq {text core : List Char} (h : IsTrimmed text core) :
    trim text = core := by
  obtain ⟨left, right, rfl, hblanks⟩ := h.blanks
  simp only [List.mem_append] at hblanks
  have hright (behind : List Char) (hbehind : ∀ c ∈ behind, isBlank c = true) :
      trimRight (core ++ behind) = core := by
    have hlast : ∀ c ∈ core.reverse.head?, isBlank c = false := by simpa using h.last
    unfold trimRight
    rw [List.reverse_append, dropWhile_append_eq (by simpa using hbehind) hlast,
      List.reverse_reverse]
  unfold trim trimLeft
  rw [List.append_assoc, List.dropWhile_append_of_pos fun c hc => hblanks c (Or.inl hc)]
  cases core with
  | nil =>
      have hall : (right ++ []).dropWhile isBlank = [] :=
        dropWhile_append_eq (fun c hc => hblanks c (Or.inr hc)) nofun
      rw [List.append_nil] at hall
      rw [List.nil_append, hall]
      rfl
  | cons c rest =>
      rw [List.cons_append, List.dropWhile_cons_of_neg (by simp [h.head c rfl])]
      exact hright right fun c hc => hblanks c (Or.inr hc)

theorem isTrimmed_trim (text : List Char) : IsTrimmed text (trim text) := by
  let back := (trimLeft text).reverse
  have hback : trimLeft text = trim text ++ (back.takeWhile isBlank).reverse := by
    unfold trim trimRight
    rw [← List.reverse_append, List.takeWhile_append_dropWhile, List.reverse_reverse]
  have htext : text = text.takeWhile isBlank ++ trimLeft text :=
    List.takeWhile_append_dropWhile.symm
  refine ⟨⟨text.takeWhile isBlank, (back.takeWhile isBlank).reverse, ?_, ?_⟩, ?_, ?_⟩
  · rw [List.append_assoc, ← hback, ← htext]
  · intro c hc
    rw [List.mem_append, List.mem_reverse] at hc
    rcases hc with hleft | hright
    · exact List.all_eq_true.1 List.all_takeWhile c hleft
    · exact List.all_eq_true.1 List.all_takeWhile c hright
  · intro c hc
    have hhead : (trimLeft text).head? = some c := by
      rw [hback, List.head?_append, Option.mem_def.1 hc]
      rfl
    have hstop := List.head?_dropWhile_not isBlank text
    rw [show text.dropWhile isBlank = trimLeft text from rfl, hhead] at hstop
    exact hstop
  · intro c hc
    have hstop := List.head?_dropWhile_not isBlank back
    rw [← List.getLast?_reverse,
      show (back.dropWhile isBlank).reverse = trim text from rfl, Option.mem_def.1 hc] at hstop
    exact hstop

/-- What is left of a text when the blanks at its ends are cut off. -/
theorem trim_eq_iff {text core : List Char} : trim text = core ↔ IsTrimmed text core :=
  ⟨fun h => h ▸ isTrimmed_trim text, IsTrimmed.trim_eq⟩

/-- A text without blanks is left as it is. -/
theorem trim_eq_self {cs : List Char} (h : ∀ c ∈ cs, isBlank c = false) : trim cs = cs := by
  refine IsTrimmed.trim_eq ⟨⟨[], [], by simp, nofun⟩, ?_, ?_⟩
  · exact fun c hc => h c (List.mem_of_mem_head? hc)
  · exact fun c hc => h c (List.mem_of_mem_getLast? hc)

/-! ## Numerals -/

theorem digitValue_lt {c : Char} (h : c.isDigit = true) : digitValue c < 10 := by
  have hrange : 48 ≤ c.toNat ∧ c.toNat ≤ 57 := Char.isDigit_iff_toNat.1 h
  show c.toNat - 48 < 10
  omega

theorem isDigitBelow_ten (c : Char) : isDigitBelow 10 c = c.isDigit := by
  unfold isDigitBelow
  cases hc : c.isDigit with
  | false => rfl
  | true => simp [digitValue_lt hc]

/-- Digits stand for the number that is computed from them. -/
theorem isDecimal_iff {digits : List Char} {n : Nat} :
    IsDecimal digits n ↔
      digits ≠ [] ∧ (∀ c ∈ digits, c.isDigit = true) ∧ Nat.ofDigitChars 10 digits 0 = n := by
  have hpush (front : List Char) (c : Char) : Nat.ofDigitChars 10 (front ++ [c]) 0 =
      10 * Nat.ofDigitChars 10 front 0 + digitValue c := by
    rw [Nat.ofDigitChars_append]
    rfl
  constructor
  · intro h
    induction h with
    | @digit c h => exact ⟨by simp, by simpa using h, by simpa using hpush [] c⟩
    | @push front n c _ h ih =>
        obtain ⟨-, hdigits, hn⟩ := ih
        refine ⟨by simp, ?_, by rw [hpush, hn]⟩
        intro d hd
        rcases List.mem_append.1 hd with hd | hd
        · exact hdigits d hd
        · rwa [List.mem_singleton.1 hd]
  · rintro ⟨hne, hdigits, rfl⟩
    induction digits using List.reverseRecOn with
    | nil => exact absurd rfl hne
    | append_singleton front c ih =>
        have hc : c.isDigit = true := hdigits c (by simp)
        rw [hpush]
        by_cases hfront : front = []
        · subst hfront
          simpa [Nat.ofDigitChars] using IsDecimal.digit hc
        · exact .push (ih hfront fun d hd => hdigits d (by simp [hd])) hc

/-- The sign of a numeral can only be a plus sign in front of its digits. -/
theorem isNumeral_iff {cs : List Char} {n : Nat} : IsNumeral cs n ↔ IsDecimal (unsigned cs) n := by
  constructor
  · intro h
    cases h with
    | signed h => exact h
    | plain h =>
        obtain ⟨hne, hdigits, -⟩ := isDecimal_iff.1 h
        have hself : unsigned cs = cs := by
          cases cs with
          | nil => rfl
          | cons c rest =>
              have hc : c.isDigit = true := hdigits c List.mem_cons_self
              unfold unsigned
              split
              · rename_i heq
                obtain ⟨rfl, -⟩ := List.cons.inj heq
                cases hc
              · rfl
        rwa [hself]
  · intro h
    unfold unsigned at h
    split at h
    · exact .signed h
    · exact .plain h

/-- The numbers below a bound are read from their numerals, and from nothing else. -/
theorem readUnsigned_eq_some_iff {bound n : Nat} {cs : List Char} :
    readUnsigned 10 bound cs = some n ↔ IsNumeral cs n ∧ n < bound := by
  have hdigits : (unsigned cs).all (isDigitBelow 10) = true ↔
      ∀ c ∈ unsigned cs, c.isDigit = true := by
    simp only [List.all_eq_true, isDigitBelow_ten]
  unfold readUnsigned
  simp only [isNumeral_iff, isDecimal_iff, hdigits]
  by_cases hform : unsigned cs ≠ [] ∧ ∀ c ∈ unsigned cs, c.isDigit = true
  · rw [if_pos hform]
    by_cases hvalue : Nat.ofDigitChars 10 (unsigned cs) 0 < bound
    · rw [if_pos hvalue, Option.some_inj]
      exact ⟨fun h => ⟨⟨hform.1, hform.2, h⟩, h ▸ hvalue⟩, fun h => h.1.2.2⟩
    · rw [if_neg hvalue]
      exact iff_of_false nofun fun h => hvalue (h.1.2.2 ▸ h.2)
  · rw [if_neg hform]
    exact iff_of_false nofun fun h => hform ⟨h.1.1, h.1.2.1⟩

/-- A word is read from the numerals of its value, and from nothing else. -/
theorem readUInt64_eq_some_iff {cs : List Char} {w : UInt64} :
    readUInt64 cs = some w ↔ IsNumeral cs w.toNat := by
  unfold readUInt64
  rw [Option.map_eq_some_iff]
  constructor
  · rintro ⟨n, hn, rfl⟩
    obtain ⟨hnumeral, hbound⟩ := readUnsigned_eq_some_iff.1 hn
    rwa [UInt64.toNat_ofNat_of_lt' hbound]
  · intro h
    exact ⟨w.toNat, readUnsigned_eq_some_iff.2 ⟨h, w.toNat_lt⟩, UInt64.ofNat_toNat⟩

/-! ## Written numbers -/

theorem isDigit_of_mem_decimal {n : Nat} {c : Char} (h : c ∈ (decimal n).toList) :
    c.isDigit = true := by
  rw [decimal, String.toList_ofList] at h
  exact Nat.isDigit_of_mem_toDigits (by decide) (by decide) h

theorem not_mem_decimal {c : Char} (hc : c.isDigit = false) (n : Nat) :
    c ∉ (decimal n).toList := by
  intro h
  rw [isDigit_of_mem_decimal h] at hc
  cases hc

theorem ofDigitChars_decimal (n : Nat) : Nat.ofDigitChars 10 (decimal n).toList 0 = n := by
  rw [decimal, String.toList_ofList, Nat.ofDigitChars_ten_toDigits]

theorem decimal_injective {m n : Nat} (h : decimal m = decimal n) : m = n := by
  rw [← ofDigitChars_decimal m, h, ofDigitChars_decimal]

theorem isDecimal_decimal (n : Nat) : IsDecimal (decimal n).toList n :=
  isDecimal_iff.2 ⟨by simp [decimal, Nat.toDigits_ne_nil], fun _ hc => isDigit_of_mem_decimal hc,
    ofDigitChars_decimal n⟩

/-- A 64-bit number is read back from its decimal digits. -/
theorem readUInt64_trim_decimal (n : UInt64) :
    readUInt64 (trim (decimal n.toNat).toList) = some n := by
  rw [trim_eq_self fun c hc => isBlank_of_isDigit (isDigit_of_mem_decimal hc)]
  exact readUInt64_eq_some_iff.2 (.plain (isDecimal_decimal n.toNat))

end ContentPreview.Text
