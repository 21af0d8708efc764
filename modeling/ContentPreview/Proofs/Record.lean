import ContentPreview.Proofs.Text.Numeral
import ContentPreview.Record

/-!
# Records through lines

The line of a record is read back as that record.  A path may hold anything, the
field separator and line breaks included: what is read as the size begins behind
the *last* separator, and a written size holds none.  What a record must not have
is a path that ends in a path separator or is empty, or the size of a directory,
since a line has no room for these.

Reading is more generous than writing, so the line that was read need not be the one
that is written for the record: blanks, a plus sign and leading zeros are gone, and so
are all path separators at the end but one.  But it is always a normal record that is
read, and its own line is read as it again.

## Main definitions

* `Record.IsNormal` — the records that a line can stand for.

## Main results

* `Record.parse_line` — the line of a normal record is read back.
* `Record.isNormal_ofRaw`, `Record.isNormal_of_parse` — the record of a raw path is
  normal, and so is every record that is read.
* `Record.line_codec` — writing and reading undo each other on these records.
-/

namespace ContentPreview

namespace Text

/-- A text is cut at a separator if none stands behind it. -/
theorem splitAtLast_append_cons {sep : Char} {before after : List Char} (h : sep ∉ after) :
    splitAtLast sep (before ++ sep :: after) = some (before, after) := by
  induction before with
  | nil =>
      rw [List.nil_append, splitAtLast, splitAtLast_eq_none_iff.2 h]
      simp
  | cons c before ih => rw [List.cons_append, splitAtLast, ih]

theorem dropTrailing_eq_self {c : Char} {cs : List Char} (h : cs.getLast? ≠ some c) :
    dropTrailing c cs = cs := by
  unfold dropTrailing
  cases hrev : cs.reverse with
  | nil => rw [List.reverse_eq_nil_iff.1 hrev]; rfl
  | cons last front =>
      have hlast : (last == c) = false := by
        rw [List.getLast?_eq_head?_reverse, hrev] at h
        simpa using h
      rw [List.dropWhile_cons_of_neg (by simp [hlast]), ← hrev, List.reverse_reverse]

theorem dropTrailing_append_replicate {c : Char} {cs : List Char} (h : cs.getLast? ≠ some c)
    (n : Nat) : dropTrailing c (cs ++ List.replicate n c) = cs := by
  have hall : ∀ d ∈ List.replicate n c, (d == c) = true := by
    intro d hd
    simpa using List.eq_of_mem_replicate hd
  have hfront : dropTrailing c cs = cs := dropTrailing_eq_self h
  unfold dropTrailing at hfront ⊢
  rw [List.reverse_append, List.reverse_replicate, List.dropWhile_append_of_pos hall, hfront]

/-- A character other than the one that is dropped stays. -/
theorem mem_dropTrailing {c d : Char} {cs : List Char} (h : d ∈ cs) (hne : d ≠ c) :
    d ∈ dropTrailing c cs := by
  have hsplit := List.takeWhile_append_dropWhile (p := (· == c)) (l := cs.reverse)
  have hmem : d ∈ cs.reverse := List.mem_reverse.2 h
  rw [← hsplit, List.mem_append] at hmem
  rcases hmem with hdropped | hkept
  · have heq := List.all_eq_true.1 List.all_takeWhile d hdropped
    exact absurd (by simpa using heq) hne
  · exact List.mem_reverse.2 hkept

theorem getLast?_dropTrailing_ne (c : Char) (cs : List Char) :
    (dropTrailing c cs).getLast? ≠ some c := by
  intro hlast
  unfold dropTrailing at hlast
  rw [List.getLast?_reverse] at hlast
  have hhead := List.head?_dropWhile_not (· == c) cs.reverse
  rw [hlast] at hhead
  simp at hhead

/-- Something is left in front of the run at the end exactly if there is another
character. -/
theorem dropTrailing_ne_nil_iff {c : Char} {cs : List Char} :
    dropTrailing c cs ≠ [] ↔ ∃ d ∈ cs, d ≠ c := by
  constructor
  · intro hleft
    cases hback : cs.reverse.dropWhile (· == c) with
    | nil =>
        rw [dropTrailing, hback] at hleft
        exact absurd rfl hleft
    | cons d rest =>
        have hd : d ∈ cs.reverse.dropWhile (· == c) := by
          rw [hback]
          exact List.mem_cons_self
        have hne : (d == c) = false := by
          have hhead := List.head?_dropWhile_not (· == c) cs.reverse
          rwa [hback] at hhead
        exact ⟨d, List.mem_reverse.1 ((List.dropWhile_sublist _).mem hd), by simpa using hne⟩
  · rintro ⟨d, hd, hne⟩
    exact List.ne_nil_of_mem (mem_dropTrailing hd hne)

end Text

namespace Record

/-- The path is not empty and has no separator at its end, and a directory has
no size. -/
def IsNormal (r : Record) : Prop :=
  r.path ≠ "" ∧ endsInSeparator r.path = false ∧ (r.isDirectory = true → r.size = 0)

theorem getLast?_ne_of_endsInSeparator {path : String} (h : endsInSeparator path = false) :
    path.toList.getLast? ≠ some Path.separator := by
  simpa [endsInSeparator] using h

theorem directory_of_not_endsInSeparator {path : String} (h : endsInSeparator path = false) :
    directory path = ⟨path, 0, true⟩ := by
  unfold directory
  rw [Text.dropTrailing_eq_self (getLast?_ne_of_endsInSeparator h), String.ofList_toList]

/-- The line of a record, as a list of characters. -/
theorem toList_line (r : Record) :
    r.line.toList = (r.path.toList ++ if r.isDirectory then [Path.separator] else []) ++
      fieldSeparator :: (Text.decimal r.size.toNat).toList := by
  unfold line
  cases r.isDirectory with
  | true => simp
  | false => simp

/-- **The line of a normal record is read back as the record.** -/
theorem parse_line {r : Record} (h : r.IsNormal) : parse r.line = .ok r := by
  obtain ⟨hne, hend, hsize⟩ := h
  have hlast := getLast?_ne_of_endsInSeparator hend
  have hchars : r.path.toList ≠ [] := by simpa using hne
  have hdigits : fieldSeparator ∉ (Text.decimal r.size.toNat).toList :=
    Text.not_mem_decimal (by decide) _
  have hdropped : Text.dropTrailing Path.separator (r.path.toList ++ [Path.separator]) =
      r.path.toList := Text.dropTrailing_append_replicate hlast 1
  unfold parse
  rw [toList_line, Text.splitAtLast_append_cons hdigits]
  simp only [Text.readUInt64_trim_decimal]
  cases hdir : r.isDirectory with
  | true =>
      have hback : ofRaw (String.ofList (r.path.toList ++ [Path.separator])) r.size false =
          ⟨r.path, 0, true⟩ := by
        unfold ofRaw directory endsInSeparator
        simp [hdropped]
      simp only [if_true, hdropped, if_neg hchars]
      rw [hback, ← hsize hdir, ← hdir]
  | false =>
      have hback : ofRaw (String.ofList r.path.toList) r.size false = ⟨r.path, r.size, false⟩ := by
        unfold ofRaw file
        simp [hend]
      simp only [Bool.false_eq_true, if_false, List.append_nil,
        Text.dropTrailing_eq_self hlast, if_neg hchars]
      rw [hback, ← hdir]

/-- A raw path that holds more than separators gives a record with a line. -/
theorem isNormal_ofRaw {path : String} (h : ∃ c ∈ path.toList, c ≠ Path.separator)
    (size : UInt64) (isDirectory : Bool) : (ofRaw path size isDirectory).IsNormal := by
  obtain ⟨c, hc, hne⟩ := h
  unfold ofRaw
  by_cases hdir : (isDirectory || endsInSeparator path) = true
  · have hkept := Text.mem_dropTrailing hc hne
    have hlast := Text.getLast?_dropTrailing_ne Path.separator path.toList
    rw [if_pos hdir]
    refine ⟨?_, ?_, fun _ => rfl⟩
    · intro hempty
      have hchars := congrArg String.toList hempty
      rw [directory, String.toList_ofList] at hchars
      rw [hchars] at hkept
      cases hkept
    · unfold directory endsInSeparator
      rw [String.toList_ofList]
      simpa using hlast
  · rw [if_neg hdir]
    simp only [Bool.or_eq_true, not_or, Bool.not_eq_true] at hdir
    refine ⟨?_, hdir.2, fun hfile => ?_⟩
    · intro hempty
      rw [show path = "" from hempty] at hc
      cases hc
    · cases hfile

theorem isNormal_tooManyFiles : tooManyFiles.IsNormal := by
  refine ⟨by decide, by decide, fun hfile => ?_⟩
  cases hfile

/-- What is read is a normal record, however the line was spelled. -/
theorem isNormal_of_parse {line : String} {r : Record} (h : parse line = .ok r) : r.IsNormal := by
  unfold parse at h
  split at h
  · cases h
  · rename_i path sizeText _
    split at h
    · cases h
    · rename_i size _
      by_cases hempty : Text.dropTrailing Path.separator path = []
      · rw [if_pos hempty] at h
        cases h
      · rw [if_neg hempty, Except.ok.injEq] at h
        subst h
        refine isNormal_ofRaw ?_ size false
        rw [String.toList_ofList]
        exact Text.dropTrailing_ne_nil_iff.1 hempty

/-- **Lines and records.**  The line of the record of a raw path is read back, whatever
the path holds beside a character that is no separator.  What is read from any line has
a path that is not empty and does not end in a separator, and no size if it is a
directory; its own line is read as it again.  Hence no two records that can be read
share a line. -/
theorem line_codec :
    (∀ (path : String) (size : UInt64) (isDirectory : Bool),
      (∃ c ∈ path.toList, c ≠ Path.separator) →
        parse (ofRaw path size isDirectory).line = .ok (ofRaw path size isDirectory)) ∧
    (∀ (line : String) (r : Record), parse line = .ok r →
      parse r.line = .ok r ∧ endsInSeparator r.path = false ∧ r.path ≠ "" ∧
        (r.isDirectory = true → r.size = 0)) ∧
    ∀ (line line' : String) (r r' : Record), parse line = .ok r → parse line' = .ok r' →
      r.line = r'.line → r = r' := by
  refine ⟨?_, ?_, ?_⟩
  · intro path size isDirectory hpath
    exact parse_line (isNormal_ofRaw hpath size isDirectory)
  · intro line r hread
    have hnormal := isNormal_of_parse hread
    exact ⟨parse_line hnormal, hnormal.2.1, hnormal.1, hnormal.2.2⟩
  · intro line line' r r' hread hread' hline
    have hback := parse_line (isNormal_of_parse hread)
    have hback' := parse_line (isNormal_of_parse hread')
    rw [hline, hback'] at hback
    exact (Except.ok.inj hback).symm

/-- A raw path with separators of both kinds and a line break, and a directory whose line
has blanks, a plus sign and leading zeros in its size. -/
theorem line_codec_awkward :
    let raw := ofRaw "/a|1 \n|/b|7" 18446744073709551615 false
    let spelled := "x|0//|\t+0042 "
    let plain := directory "x|0"
    raw.line = "/a|1 \n|/b|7|18446744073709551615" ∧ parse raw.line = .ok raw ∧
      parse spelled = .ok plain ∧ plain.line = "x|0/|0" ∧ parse plain.line = .ok plain := by
  intro raw spelled plain
  obtain ⟨hraw, hread, -⟩ := line_codec
  have hsplit : Text.splitAtLast fieldSeparator spelled.toList =
      some (['x', '|', '0', '/', '/'], ['\t', '+', '0', '0', '4', '2', ' ']) := by decide
  have hsize : Text.readUInt64 (Text.trim ['\t', '+', '0', '0', '4', '2', ' ']) = some 42 := by
    decide
  have hspelled : parse spelled = .ok plain := by
    unfold parse
    rw [hsplit]
    dsimp only
    rw [hsize]
    dsimp only
    rw [if_neg (by decide)]
    exact congrArg Except.ok (by decide)
  have hplain := (hread spelled plain hspelled).1
  exact ⟨by decide, hraw _ _ _ ⟨'a', by decide, by decide⟩, hspelled, by decide, hplain⟩

end Record

end ContentPreview
