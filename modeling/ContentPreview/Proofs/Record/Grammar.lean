import ContentPreview.Proofs.Record
import ContentPreview.Tree.Materialize
import Mathlib.Data.List.Forall2

/-!
# The lines of a listing

Which lines are read as a record, which record that is, and what is wrong with any other
line.  A line is divided at its last field separator.  Behind it there must be the numeral
of a 64-bit word, which may have blanks around it; in front of it there must be something
other than path separators.  A path that ends in path separators is that of a directory,
without them, and the size of the line plays no further role.

Of the three things that can be wrong, the one that is reported is the first in this order:
a line without a field separator has no size to look at, and the path is looked at only
behind a size.

A listing is read line by line, and its error is that of the first bad line.

## Main definitions

* `Record.IsDivided`, `Record.IsSize` — a line divided at its last separator, and the texts
  that are a size.
* `Record.ReadsAs` — the lines and their answers, one constructor an answer.

## Main results

* `Record.parse_eq_iff` — the reader answers as the grammar says.
* `Record.parseAll_eq_error_iff`, `Record.parseAll_eq_ok_iff` — the same for listings.
* `Record.parse_exact` — lines, the precedence of errors, and the trees of listings.
-/

namespace ContentPreview

namespace Text

theorem splitAtLast_eq_some_iff {sep : Char} {cs before after : List Char} :
    splitAtLast sep cs = some (before, after) ↔ cs = before ++ sep :: after ∧ sep ∉ after := by
  constructor
  · exact splitAtLast_eq_some
  · rintro ⟨rfl, hafter⟩
    exact splitAtLast_append_cons hafter

/-- What is dropped at the end of a text is a run of the character. -/
theorem exists_dropTrailing_append (c : Char) (cs : List Char) :
    ∃ n, cs = dropTrailing c cs ++ List.replicate n c := by
  let run := cs.reverse.takeWhile (· == c)
  have hrun : run.reverse = List.replicate run.length c := by
    refine List.eq_replicate_iff.2 ⟨List.length_reverse, fun d hd => ?_⟩
    have heq := List.all_eq_true.1 List.all_takeWhile d (List.mem_reverse.1 hd)
    simpa using heq
  have hsplit : cs = dropTrailing c cs ++ run.reverse := by
    unfold dropTrailing
    rw [← List.reverse_append, List.takeWhile_append_dropWhile, List.reverse_reverse]
  exact ⟨run.length, hrun ▸ hsplit⟩

end Text

namespace Record

/-! ## The grammar -/

/-- The line divided at its last field separator. -/
def IsDivided (line : String) (path size : List Char) : Prop :=
  line.toList = path ++ fieldSeparator :: size ∧ fieldSeparator ∉ size

/-- The text is the numeral of a 64-bit word, with blanks around it or not. -/
def IsSize (text : List Char) (size : UInt64) : Prop :=
  ∃ core, Text.IsTrimmed text core ∧ Text.IsNumeral core size.toNat

/-- A line and the answer to it. -/
inductive ReadsAs (line : String) : Except RecordError Record → Prop
  | missingSeparator (h : fieldSeparator ∉ line.toList) :
      ReadsAs line (.error (.missingSeparator line))
  | invalidSize {path sizeText : List Char} (h : IsDivided line path sizeText)
      (hsize : ∀ size, ¬ IsSize sizeText size) :
      ReadsAs line (.error (.invalidSize (String.ofList sizeText)))
  | emptyPath {path sizeText : List Char} {size : UInt64} (h : IsDivided line path sizeText)
      (hsize : IsSize sizeText size) (hpath : ∀ c ∈ path, c = Path.separator) :
      ReadsAs line (.error .emptyPath)
  | directory {path sizeText : List Char} {size : UInt64} {further : Nat}
      (h : IsDivided line (path ++ List.replicate (further + 1) Path.separator) sizeText)
      (hsize : IsSize sizeText size) (hpath : path ≠ [])
      (hlast : path.getLast? ≠ some Path.separator) :
      ReadsAs line (.ok ⟨String.ofList path, 0, true⟩)
  | file {path sizeText : List Char} {size : UInt64} (h : IsDivided line path sizeText)
      (hsize : IsSize sizeText size) (hpath : path ≠ [])
      (hlast : path.getLast? ≠ some Path.separator) :
      ReadsAs line (.ok ⟨String.ofList path, size, false⟩)

theorem IsDivided.splitAtLast {line : String} {path size : List Char}
    (h : IsDivided line path size) :
    Text.splitAtLast fieldSeparator line.toList = some (path, size) :=
  Text.splitAtLast_eq_some_iff.2 h

/-- A line is divided in one way. -/
theorem IsDivided.unique {line : String} {path path' size size' : List Char}
    (h : IsDivided line path size) (h' : IsDivided line path' size') :
    path = path' ∧ size = size' := by
  have heq := h.splitAtLast.symm.trans h'.splitAtLast
  simpa using heq

theorem readUInt64_trim_eq_some_iff {text : List Char} {size : UInt64} :
    Text.readUInt64 (Text.trim text) = some size ↔ IsSize text size := by
  rw [Text.readUInt64_eq_some_iff]
  constructor
  · exact fun h => ⟨Text.trim text, Text.trim_eq_iff.1 rfl, h⟩
  · rintro ⟨core, htrimmed, hnumeral⟩
    rwa [Text.trim_eq_iff.2 htrimmed]

theorem readUInt64_trim_eq_none_iff {text : List Char} :
    Text.readUInt64 (Text.trim text) = none ↔ ∀ size, ¬ IsSize text size := by
  simp only [← readUInt64_trim_eq_some_iff, Option.eq_none_iff_forall_ne_some, ne_eq]

/-! ## Reading a line -/

section Line

variable {line : String} {path sizeText : List Char} {size : UInt64}

/-- What a divided line is read as. -/
theorem parse_of_isDivided (h : IsDivided line path sizeText) :
    parse line =
      match Text.readUInt64 (Text.trim sizeText) with
      | none => .error (.invalidSize (String.ofList sizeText))
      | some size =>
        if Text.dropTrailing Path.separator path = [] then .error .emptyPath
        else .ok (ofRaw (String.ofList path) size false) := by
  unfold parse
  cases hfound : Text.splitAtLast fieldSeparator line.toList with
  | none => cases hfound.symm.trans h.splitAtLast
  | some found =>
      obtain rfl := Option.some.inj (hfound.symm.trans h.splitAtLast)
      rfl

theorem parse_of_isSize (h : IsDivided line path sizeText) (hsize : IsSize sizeText size) :
    parse line =
      if Text.dropTrailing Path.separator path = [] then .error .emptyPath
      else .ok (ofRaw (String.ofList path) size false) := by
  rw [parse_of_isDivided h, readUInt64_trim_eq_some_iff.2 hsize]

theorem dropTrailing_eq_nil_iff :
    Text.dropTrailing Path.separator path = [] ↔ ∀ c ∈ path, c = Path.separator := by
  rw [← not_iff_not, ← ne_eq, Text.dropTrailing_ne_nil_iff]
  simp

/-- The record of a path with separators at its end. -/
theorem ofRaw_append_separators (hlast : path.getLast? ≠ some Path.separator) (further : Nat) :
    ofRaw (String.ofList (path ++ List.replicate (further + 1) Path.separator)) size false =
      ⟨String.ofList path, 0, true⟩ := by
  have hends : endsInSeparator
      (String.ofList (path ++ List.replicate (further + 1) Path.separator)) = true := by
    simp [endsInSeparator, List.getLast?_append, List.getLast?_replicate]
  unfold ofRaw directory
  rw [hends, String.toList_ofList, Text.dropTrailing_append_replicate hlast]
  rfl

/-- The record of a path without a separator at its end. -/
theorem ofRaw_of_getLast_ne (hlast : path.getLast? ≠ some Path.separator) :
    ofRaw (String.ofList path) size false = ⟨String.ofList path, size, false⟩ := by
  have hends : endsInSeparator (String.ofList path) = false := by
    simpa [endsInSeparator] using hlast
  unfold ofRaw
  rw [hends]
  rfl

/-- Every line is read as the grammar says. -/
theorem readsAs_parse (line : String) : ReadsAs line (parse line) := by
  cases hsplit : Text.splitAtLast fieldSeparator line.toList with
  | none =>
      have hanswer : parse line = .error (.missingSeparator line) := by
        unfold parse
        rw [hsplit]
      rw [hanswer]
      exact .missingSeparator (Text.splitAtLast_eq_none_iff.1 hsplit)
  | some halves =>
      obtain ⟨path, sizeText⟩ := halves
      have h : IsDivided line path sizeText := Text.splitAtLast_eq_some hsplit
      cases hread : Text.readUInt64 (Text.trim sizeText) with
      | none =>
          rw [parse_of_isDivided h, hread]
          exact .invalidSize h (readUInt64_trim_eq_none_iff.1 hread)
      | some size =>
          have hsize : IsSize sizeText size := readUInt64_trim_eq_some_iff.1 hread
          rw [parse_of_isSize h hsize]
          by_cases hempty : Text.dropTrailing Path.separator path = []
          · rw [if_pos hempty]
            exact .emptyPath h hsize (dropTrailing_eq_nil_iff.1 hempty)
          · rw [if_neg hempty]
            obtain ⟨run, hpath⟩ := Text.exists_dropTrailing_append Path.separator path
            have hlast := Text.getLast?_dropTrailing_ne Path.separator path
            generalize Text.dropTrailing Path.separator path = left at hempty hpath hlast
            subst hpath
            cases run with
            | zero =>
                simp only [List.replicate_zero, List.append_nil] at h ⊢
                rw [ofRaw_of_getLast_ne hlast]
                exact .file h hsize hempty hlast
            | succ further =>
                rw [ofRaw_append_separators hlast]
                exact .directory h hsize hempty hlast

/-- No line is read in two ways. -/
theorem ReadsAs.parse_eq {answer : Except RecordError Record} (h : ReadsAs line answer) :
    parse line = answer := by
  cases h with
  | missingSeparator h =>
      unfold parse
      rw [Text.splitAtLast_eq_none_iff.2 h]
  | invalidSize h hsize =>
      rw [parse_of_isDivided h, readUInt64_trim_eq_none_iff.2 hsize]
  | emptyPath h hsize hpath =>
      rw [parse_of_isSize h hsize, if_pos (dropTrailing_eq_nil_iff.2 hpath)]
  | directory h hsize hpath hlast =>
      rw [parse_of_isSize h hsize, Text.dropTrailing_append_replicate hlast, if_neg hpath,
        ofRaw_append_separators hlast]
  | file h hsize hpath hlast =>
      rw [parse_of_isSize h hsize, Text.dropTrailing_eq_self hlast, if_neg hpath,
        ofRaw_of_getLast_ne hlast]

/-- The reader answers as the grammar says. -/
theorem parse_eq_iff {answer : Except RecordError Record} :
    parse line = answer ↔ ReadsAs line answer :=
  ⟨fun h => h ▸ readsAs_parse line, ReadsAs.parse_eq⟩

end Line

/-! ## Reading a listing -/

theorem parseAll_cons (line : String) (rest : List String) :
    parseAll (line :: rest) =
      (parse line).bind fun r => (parseAll rest).map fun records => r :: records := by
  unfold parseAll
  rw [List.mapM_cons]
  cases parse line with
  | error e => rfl
  | ok r => cases rest.mapM parse <;> rfl

/-- A listing is read if all its lines are, one record a line. -/
theorem parseAll_eq_ok_iff {lines : List String} {records : List Record} :
    parseAll lines = .ok records ↔
      List.Forall₂ (fun line r => parse line = .ok r) lines records := by
  induction lines generalizing records with
  | nil =>
      rw [List.forall₂_nil_left_iff]
      exact ⟨fun h => (Except.ok.inj h).symm, fun h => h ▸ rfl⟩
  | cons line rest ih =>
      rw [parseAll_cons, List.forall₂_cons_left_iff]
      simp only [← ih]
      cases parse line with
      | error e => exact iff_of_false nofun fun ⟨_, _, h, _⟩ => nomatch h
      | ok r =>
          cases parseAll rest with
          | error e => exact iff_of_false nofun fun ⟨_, _, _, h, _⟩ => nomatch h
          | ok others =>
              constructor
              · intro h
                exact ⟨r, others, rfl, rfl, (Except.ok.inj h).symm⟩
              · rintro ⟨_, _, hr, hothers, rfl⟩
                cases hr
                cases hothers
                rfl

theorem exists_of_parseAll {lines : List String} {records : List Record}
    (h : parseAll lines = .ok records) : ∀ line ∈ lines, ∃ r, parse line = .ok r := by
  have hboth : List.Forall₂ (fun line r => (∃ r, parse line = .ok r) ∧ parse line = .ok r)
      lines records := (parseAll_eq_ok_iff.1 h).imp fun line r hr => ⟨⟨r, hr⟩, hr⟩
  exact ((List.forall₂_and_left _ _).1 hboth).1

/-- The error of a listing is that of its first bad line. -/
theorem parseAll_eq_error_iff {lines : List String} {e : RecordError} :
    parseAll lines = .error e ↔
      ∃ before line after, lines = before ++ line :: after ∧
        (∀ good ∈ before, ∃ r, parse good = .ok r) ∧ parse line = .error e := by
  induction lines with
  | nil => exact iff_of_false nofun fun ⟨_, _, _, h, _⟩ => by simp at h
  | cons first rest ih =>
      rw [parseAll_cons]
      cases hfirst : parse first with
      | error e' =>
          constructor
          · intro h
            cases h
            exact ⟨[], first, rest, rfl, nofun, hfirst⟩
          · rintro ⟨before, line, after, hsplit, hgood, hline⟩
            cases before with
            | nil =>
                obtain ⟨rfl, -⟩ := List.cons.inj hsplit
                obtain rfl := Except.error.inj (hfirst.symm.trans hline)
                rfl
            | cons good before =>
                obtain ⟨rfl, -⟩ := List.cons.inj hsplit
                obtain ⟨r, hr⟩ := hgood first List.mem_cons_self
                cases hfirst.symm.trans hr
      | ok r =>
          have hrest : ((parseAll rest).map fun records => r :: records) = .error e ↔
              parseAll rest = .error e := by
            cases parseAll rest with
            | error e' => exact ⟨fun h => congrArg _ (Except.error.inj h), fun h => by cases h; rfl⟩
            | ok records => exact iff_of_false nofun nofun
          refine hrest.trans (ih.trans ?_)
          constructor
          · rintro ⟨before, line, after, rfl, hgood, hline⟩
            exact ⟨first :: before, line, after, rfl,
              List.forall_mem_cons.2 ⟨⟨r, hfirst⟩, hgood⟩, hline⟩
          · rintro ⟨before, line, after, hsplit, hgood, hline⟩
            cases before with
            | nil =>
                obtain ⟨rfl, -⟩ := List.cons.inj hsplit
                cases hfirst.symm.trans hline
            | cons good before =>
                obtain ⟨rfl, rfl⟩ := List.cons.inj hsplit
                exact ⟨before, line, after, rfl, (List.forall_mem_cons.1 hgood).2, hline⟩

/-- A tree is made of lines if all of them are read; the error is that of the first bad
line. -/
theorem materializeLines_eq_iff {lines : List String} :
    (∀ e, materializeLines lines = .error e ↔ parseAll lines = .error e) ∧
      ∀ roots, materializeLines lines = .ok roots ↔
        ∃ records, parseAll lines = .ok records ∧ roots = materialize records := by
  unfold materializeLines
  cases parseAll lines with
  | error e =>
      refine ⟨fun e' => ?_, fun roots => iff_of_false nofun fun ⟨_, h, _⟩ => nomatch h⟩
      exact ⟨fun h => congrArg _ (Except.error.inj h), fun h => congrArg _ (Except.error.inj h)⟩
  | ok records =>
      refine ⟨fun e => iff_of_false nofun nofun, fun roots => ?_⟩
      constructor
      · intro h
        exact ⟨records, rfl, (Except.ok.inj h).symm⟩
      · rintro ⟨_, h, rfl⟩
        cases h
        rfl

/-- **The reader accepts exactly its grammar.**  A line is read as a record, or refused with
an error, exactly as the grammar says.  In particular a separator is missed exactly if there
is none; of a divided line the size is refused, as it stands there, exactly if it is no
numeral of a word between blanks; and behind a size the path is refused exactly if it
consists of path separators alone, or is empty.  A list of lines is refused exactly if one
of them is, with the error of the first such line, and otherwise makes the tree of the
records of its lines. -/
theorem parse_exact :
    (∀ (line : String) (answer : Except RecordError Record),
      parse line = answer ↔ ReadsAs line answer) ∧
    (∀ line : String,
      ((∃ shown, parse line = .error (.missingSeparator shown)) ↔ '|' ∉ line.toList) ∧
      ∀ path sizeText, IsDivided line path sizeText →
        ((∃ shown, parse line = .error (.invalidSize shown)) ↔ ∀ size, ¬ IsSize sizeText size) ∧
        ∀ size, IsSize sizeText size →
          (parse line = .error .emptyPath ↔ ∀ c ∈ path, c = '/') ∧
          ((∃ r, parse line = .ok r) ↔ ∃ c ∈ path, c ≠ '/')) ∧
    ∀ lines : List String,
      ((∃ e, materializeLines lines = .error e) ↔ ∃ line ∈ lines, ∃ e, parse line = .error e) ∧
      (∀ e, materializeLines lines = .error e ↔
        ∃ before line after, lines = before ++ line :: after ∧
          (∀ good ∈ before, ∃ r, parse good = .ok r) ∧ parse line = .error e) ∧
      ∀ roots, materializeLines lines = .ok roots ↔
        ∃ records, List.Forall₂ (fun line r => parse line = .ok r) lines records ∧
          roots = materialize records := by
  refine ⟨fun line answer => parse_eq_iff, fun line => ⟨?_, ?_⟩, fun lines => ?_⟩
  · constructor
    · rintro ⟨shown, hread⟩
      cases parse_eq_iff.1 hread with
      | missingSeparator h => exact h
    · exact fun h => ⟨line, parse_eq_iff.2 (.missingSeparator h)⟩
  · intro path sizeText h
    refine ⟨⟨?_, fun hsize => ⟨_, parse_eq_iff.2 (.invalidSize h hsize)⟩⟩, fun size hsize => ?_⟩
    · rintro ⟨shown, hread⟩
      cases parse_eq_iff.1 hread with
      | invalidSize h' hsize =>
          obtain ⟨-, rfl⟩ := h.unique h'
          exact hsize
    · have hread := parse_of_isSize h hsize
      by_cases hempty : ∀ c ∈ path, c = '/'
      · rw [if_pos (dropTrailing_eq_nil_iff.2 hempty)] at hread
        rw [hread]
        refine ⟨iff_of_true rfl hempty, iff_of_false nofun ?_⟩
        rintro ⟨c, hc, hne⟩
        exact hne (hempty c hc)
      · rw [if_neg fun hnil => hempty (dropTrailing_eq_nil_iff.1 hnil)] at hread
        rw [hread]
        refine ⟨iff_of_false nofun hempty, iff_of_true ⟨_, rfl⟩ ?_⟩
        simpa using hempty
  · obtain ⟨herror, hok⟩ := @materializeLines_eq_iff lines
    refine ⟨⟨?_, ?_⟩, fun e => (herror e).trans parseAll_eq_error_iff, fun roots => ?_⟩
    · rintro ⟨e, he⟩
      obtain ⟨before, line, after, rfl, -, hline⟩ := parseAll_eq_error_iff.1 ((herror e).1 he)
      exact ⟨line, by simp, e, hline⟩
    · rintro ⟨line, hmem, e, hline⟩
      cases hall : parseAll lines with
      | error first => exact ⟨first, (herror first).2 hall⟩
      | ok records =>
          obtain ⟨r, hr⟩ := exists_of_parseAll hall line hmem
          cases hr.symm.trans hline
    · simp only [hok roots, parseAll_eq_ok_iff]

/-- Errors in their order of precedence, a directory of many separators with a field
separator in its name and a spelled-out size, and a listing whose first bad line is its
second. -/
theorem parse_exact_precedence :
    parse "x/7" = .error (.missingSeparator "x/7") ∧
      parse "//|-1" = .error (.invalidSize "-1") ∧
      parse "//|18446744073709551616" = .error (.invalidSize "18446744073709551616") ∧
      parse "//|18446744073709551615" = .error .emptyPath ∧
      parse "a|b//|\t+007\u3000" = .ok ⟨"a|b", 0, true⟩ ∧
      materializeLines ["a|b//|\t+007\u3000", "//|-1", "x/7"] = .error (.invalidSize "-1") := by
  obtain ⟨hread, -, hlines⟩ := parse_exact
  have hbad : ∀ size, ¬ IsSize ['-', '1'] size := readUInt64_trim_eq_none_iff.1 (by decide)
  have hover : ∀ size, ¬ IsSize "18446744073709551616".toList size :=
    readUInt64_trim_eq_none_iff.1 (by decide)
  have hmost : IsSize "18446744073709551615".toList 18446744073709551615 :=
    readUInt64_trim_eq_some_iff.1 (by decide)
  have hspelled : IsSize ['\t', '+', '0', '0', '7', '\u3000'] 7 :=
    readUInt64_trim_eq_some_iff.1 (by decide)
  have hsigned : parse "//|-1" = .error (.invalidSize "-1") :=
    (hread _ _).2 (@ReadsAs.invalidSize _ ['/', '/'] _ ⟨by decide, by decide⟩ hbad)
  have htoo : parse "//|18446744073709551616" = .error (.invalidSize "18446744073709551616") :=
    (hread _ _).2 (@ReadsAs.invalidSize _ ['/', '/'] _ ⟨by decide, by decide⟩ hover)
  have hempty : parse "//|18446744073709551615" = .error .emptyPath :=
    (hread _ _).2 (@ReadsAs.emptyPath _ ['/', '/'] _ _ ⟨by decide, by decide⟩ hmost
      (by simp [Path.separator]))
  have hdirectory : parse "a|b//|\t+007\u3000" = .ok ⟨"a|b", 0, true⟩ :=
    (hread _ _).2 (@ReadsAs.directory _ ['a', '|', 'b'] _ 7 1 ⟨by decide, by decide⟩ hspelled
      (by decide) (by decide))
  refine ⟨(hread _ _).2 (.missingSeparator (by decide)), hsigned, htoo, hempty, hdirectory, ?_⟩
  refine ((hlines _).2.1 _).2 ⟨["a|b//|\t+007\u3000"], "//|-1", ["x/7"], rfl, ?_, hsigned⟩
  intro good hgood
  rw [List.mem_singleton.1 hgood]
  exact ⟨_, hdirectory⟩

end Record

end ContentPreview
