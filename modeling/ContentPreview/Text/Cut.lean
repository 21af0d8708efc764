/-!
# Ends and parts of texts

What is looked at, and cut off, at the ends of a text: blanks, runs of one
character, and suffixes of file names; and how a text is divided, at the last
occurrence of a character or behind a number of characters.  Division at every
occurrence is `List.splitOn`.

## Main definitions

* `isBlank`, `trim` — blank characters, and a text without them at its ends.
* `lower`, `hasSuffix` — suffixes regardless of letter case.
* `splitAtLast`, `dropTrailing` — division at a character.
* `offsets`, `offsetAfter`, `positionAfter` — where a number of characters ends
  in bytes.
* `beginning` — the characters of a text up to there.

## Main results

* `splitAtLast_eq_some`, `splitAtLast_eq_none_iff` — the two halves, and when
  there are none.
* `offsetAfter_eq`, `isValid_offsetAfter` — the bytes in front of that offset
  are those of the characters in front of it, and a text can be divided there.
* `beginning_eq` — the division counts characters.
-/

namespace ContentPreview.Text

/-! ## Blank characters

The class is the Unicode property `White_Space`: twenty-five characters,
among them the next-line control `U+0085`, the no-break space `U+00A0`, the
line separator `U+2028` and the ideographic space `U+3000`.  The zero-width
characters `U+200B` and `U+FEFF` do not have the property.
-/

/-- The characters that have the Unicode property `White_Space`. -/
def isBlank (c : Char) : Bool :=
  let n := c.toNat
  (0x09 ≤ n && n ≤ 0x0D) || n == 0x20 || n == 0x85 || n == 0xA0 || n == 0x1680
    || (0x2000 ≤ n && n ≤ 0x200A) || n == 0x2028 || n == 0x2029 || n == 0x202F
    || n == 0x205F || n == 0x3000

/-- The text without its leading blanks. -/
def trimLeft (cs : List Char) : List Char := cs.dropWhile isBlank

/-- The text without its trailing blanks. -/
def trimRight (cs : List Char) : List Char := (cs.reverse.dropWhile isBlank).reverse

/-- The text without the blanks at its two ends. -/
def trim (cs : List Char) : List Char := trimRight (trimLeft cs)

/-! ## Suffixes regardless of letter case

File names are classified by what they end in, and the comparison ignores the
case of the ASCII letters.  Letters outside ASCII are compared as they stand.
-/

/-- The text with its ASCII capital letters made small. -/
def lower (cs : List Char) : List Char := cs.map Char.toLower

/-- Whether the name, with its ASCII capitals made small, ends in `suffix`. -/
def hasSuffix (suffix name : String) : Bool := suffix.toList.isSuffixOf (lower name.toList)

/-! ## Division at a character -/

/-- The text before and after the last occurrence of `sep`. -/
def splitAtLast (sep : Char) : List Char → Option (List Char × List Char)
  | [] => none
  | c :: rest =>
    match splitAtLast sep rest with
    | some (before, after) => some (c :: before, after)
    | none => if c = sep then some ([], rest) else none

theorem splitAtLast_eq_none_iff {sep : Char} {cs : List Char} :
    splitAtLast sep cs = none ↔ sep ∉ cs := by
  induction cs with
  | nil => simp [splitAtLast]
  | cons c rest ih =>
    simp only [splitAtLast]
    split
    · rename_i h; simp_all
    · rename_i h; rw [ih] at h; grind

theorem splitAtLast_eq_some {sep : Char} {cs before after : List Char}
    (h : splitAtLast sep cs = some (before, after)) :
    cs = before ++ sep :: after ∧ sep ∉ after := by
  induction cs generalizing before with
  | nil => simp [splitAtLast] at h
  | cons c rest ih =>
    simp only [splitAtLast] at h
    split at h
    · rename_i b a hb
      simp only [Option.some.injEq, Prod.mk.injEq] at h
      obtain ⟨rfl, rfl⟩ := h
      obtain ⟨h₁, h₂⟩ := ih hb
      exact ⟨by rw [h₁]; rfl, h₂⟩
    · rename_i hn
      rw [splitAtLast_eq_none_iff] at hn
      split at h
      · rename_i hc
        simp only [Option.some.injEq, Prod.mk.injEq] at h
        obtain ⟨rfl, rfl⟩ := h
        exact ⟨by rw [hc]; rfl, hn⟩
      · cases h

/-- The text without the run of `c` that it ends with. -/
def dropTrailing (c : Char) (cs : List Char) : List Char := (cs.reverse.dropWhile (· == c)).reverse

/-! ## Byte offsets of characters

A text is kept as UTF-8, in which a character takes one to four bytes.  So a
number of characters is not a number of bytes, and a text can be divided only
at the offset of a character or at its end.
-/

/-- The byte offsets of characters of which the first begins at `start`. -/
def offsetsFrom : Nat → List Char → List Nat
  | _, [] => []
  | start, c :: rest => start :: offsetsFrom (start + c.utf8Size) rest

/-- The byte offsets at which the characters of a text begin. -/
def offsets (text : String) : List Nat := offsetsFrom 0 text.toList

/-- The byte offset behind the first `count` characters: where the next one
begins, or the end of a text that has no more. -/
def offsetAfter (count : Nat) (text : String) : Nat :=
  (offsets text)[count]?.getD text.utf8ByteSize

theorem getD_offsetsFrom (count start : Nat) (cs : List Char) :
    (offsetsFrom start cs)[count]?.getD (start + (String.ofList cs).utf8ByteSize) =
      start + (String.ofList (cs.take count)).utf8ByteSize := by
  induction cs generalizing count start with
  | nil => simp [offsetsFrom]
  | cons c rest ih =>
    have hsize (l : List Char) : (String.ofList (c :: l)).utf8ByteSize =
        c.utf8Size + (String.ofList l).utf8ByteSize := by
      rw [String.ofList_cons, String.utf8ByteSize_append, String.utf8ByteSize_singleton]
    cases count with
    | zero => simp [offsetsFrom]
    | succ count =>
      have hrest := ih count (start + c.utf8Size)
      rw [List.take_succ_cons, hsize, hsize, ← Nat.add_assoc, ← Nat.add_assoc]
      simpa [offsetsFrom] using hrest

theorem offsetAfter_eq (count : Nat) (text : String) :
    offsetAfter count text = (String.ofList (text.toList.take count)).utf8ByteSize := by
  have h := getD_offsetsFrom count 0 text.toList
  rwa [String.ofList_toList, Nat.zero_add, Nat.zero_add] at h

theorem isValid_offsetAfter (count : Nat) (text : String) :
    (⟨offsetAfter count text⟩ : String.Pos.Raw).IsValid text :=
  String.Pos.Raw.isValid_iff_exists_take_toList.2 ⟨count, offsetAfter_eq count text⟩

/-- The position behind the first `count` characters. -/
def positionAfter (count : Nat) (text : String) : text.Pos :=
  ⟨⟨offsetAfter count text⟩, isValid_offsetAfter count text⟩

/-- The first `count` characters of a text. -/
def beginning (count : Nat) (text : String) : String :=
  (text.sliceTo (positionAfter count text)).copy

theorem beginning_eq (count : Nat) (text : String) :
    beginning count text = String.ofList (text.toList.take count) := by
  refine String.copy_sliceTo_eq_iff_exists_splits.2
    ⟨String.ofList (text.toList.drop count), ?_, ?_⟩
  · rw [← String.ofList_append, List.take_append_drop, String.ofList_toList]
  · exact String.Pos.Raw.ext (offsetAfter_eq count text)

end ContentPreview.Text
