import ContentPreview.Proofs.Bounds

/-!
# The cut of a text

A text over its bound is cut at a byte offset and ends in a marker.  The offset is found
by counting characters, so it never falls into one; and what is in front of it is as
many characters as were counted.

The marker counts too.  A text that was cut is as long as its bound, unless the bound
does not leave room for the marker: then nothing of the text is left, and the marker
alone is longer than the bound.  So a second cut finds its text over the bound exactly
if the second bound is below both the first one and the marker, and what it keeps lies
in front of the first marker.  That is why two cuts are the cut by the smaller bound,
for bounds below the marker as well.

## Main results

* `length_truncateText` — the length of a text that was cut.
* `truncateText_truncateText` — two cuts are one.
* `truncateText_exact` — where a text is cut, what is left, and how cuts compose.
-/

namespace ContentPreview

theorem length_truncationMarker : truncationMarker.length = 6 := by decide

section Cut

variable {max next : Nat} {text : String}

/-- A text that was cut is as long as the bound, or as the marker if that is longer. -/
theorem length_truncateText (h : max < text.length) :
    (truncateText max text).length = max - 6 + 6 := by
  have hlength : text.toList.length = text.length := String.length_toList
  rw [truncateText_of_lt h, String.length_append, String.length_ofList, List.length_take,
    length_truncationMarker]
  omega

/-- What a second cut keeps was in front of the first marker. -/
theorem take_truncateText (h : max < text.length) (hnext : next < max - 6 + 6) :
    (truncateText max text).toList.take (next - 6) = text.toList.take (min max next - 6) := by
  have hlength : text.toList.length = text.length := String.length_toList
  have hfront : next - 6 ≤ (text.toList.take (max - 6)).length := by
    rw [List.length_take]
    omega
  have hkept : min (next - 6) (max - 6) = min max next - 6 := by omega
  rw [truncateText_of_lt h, length_truncationMarker, String.toList_append, String.toList_ofList,
    List.take_append_of_le_length hfront, List.take_take, hkept]

/-- **Two cuts are the cut by the smaller bound.** -/
theorem truncateText_truncateText (max next : Nat) (text : String) :
    truncateText next (truncateText max text) = truncateText (min max next) text := by
  by_cases hlong : max < text.length
  · have hlength := length_truncateText hlong
    by_cases hcut : next < max - 6 + 6
    · have hsmaller : min max next < text.length := by omega
      rw [truncateText_of_lt (by omega), truncateText_of_lt hsmaller, length_truncationMarker,
        take_truncateText hlong hcut]
    · have hmin : min max next = max := by omega
      rw [truncateText_of_le (by omega), hmin]
  · have hfirst : truncateText max text = text := truncateText_of_le (by omega)
    rw [hfirst]
    by_cases hnext : next ≤ max
    · rw [Nat.min_eq_right hnext]
    · rw [Nat.min_eq_left (by omega), hfirst, truncateText_of_le (by omega)]

end Cut

/-- **The cut of a text is exact.**  A text of at most `max` characters is left alone;
of a longer one the first `max - 6` characters are kept, and the marker follows.  The
byte offset of the cut is that of the bytes that are kept.  It is a boundary between
characters in the text, so that the text can be divided there, and the part in front of
it is what is kept.  With room for the marker the result has at most `max` characters,
and for any two bounds two cuts are the cut by the smaller one. -/
theorem truncateText_exact (max : Nat) (text : String) :
    let cut := Text.offsetAfter (max - 6) text
    let kept := String.ofList (text.toList.take (max - 6))
    truncateText max text = (if text.length ≤ max then text else kept ++ " . . .") ∧
      cut = kept.utf8ByteSize ∧
      (∃ hcut : (⟨cut⟩ : String.Pos.Raw).IsValid text,
        max < text.length → truncateText max text = (text.sliceTo ⟨⟨cut⟩, hcut⟩).copy ++ " . . .") ∧
      (6 ≤ max → (truncateText max text).length ≤ max) ∧
      ∀ next, truncateText next (truncateText max text) = truncateText (min max next) text := by
  intro cut kept
  have hlong (h : max < text.length) : truncateText max text = kept ++ " . . ." := by
    rw [truncateText_of_lt h, length_truncationMarker]
    rfl
  refine ⟨?_, ?_, ⟨?_, ?_⟩, ?_, ?_⟩
  · by_cases hshort : text.length ≤ max
    · rw [if_pos hshort, truncateText_of_le hshort]
    · rw [if_neg hshort, hlong (by omega)]
  · exact Text.offsetAfter_eq (max - 6) text
  · exact Text.isValid_offsetAfter (max - 6) text
  · intro h
    have hslice : (text.sliceTo (Text.positionAfter (max - 6) text)).copy = kept :=
      Text.beginning_eq (max - 6) text
    rw [hlong h, ← hslice]
    rfl
  · intro hroom
    exact length_truncateText_le (by rwa [length_truncationMarker]) text
  · exact fun next => truncateText_truncateText max next text

/-- Characters of one to four bytes, cut behind three of them, and then by a bound that the
marker does not fit. -/
theorem truncateText_exact_wide :
    let text := "aé€𝒫bcdefgh"
    6 ≤ 9 ∧ 9 < text.length ∧ Text.offsetAfter (9 - 6) text = 6 ∧
      truncateText 9 text = "aé€ . . ." ∧ (truncateText 9 text).length ≤ 9 ∧
      truncateText 4 (truncateText 9 text) = " . . ." := by
  intro text
  have hlong : 9 < text.length := by decide
  obtain ⟨hcut, -, -, hbound, hcompose⟩ := truncateText_exact 9 text
  have hmark : truncateText 4 text = " . . ." := by decide
  refine ⟨by decide, hlong, by decide, ?_, hbound (by decide), ?_⟩
  · rw [hcut, if_neg (by omega)]
    decide
  · rw [hcompose 4]
    exact hmark

end ContentPreview
