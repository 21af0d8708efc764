import ContentPreview.Bitstream
import ContentPreview.Proofs.Text.Numeral
import ContentPreview.Proofs.Text.Percent
import Mathlib.Data.List.Basic

/-!
# What a URL tells

A URL is put together from a stem, the encoded file name and the query, and only the name
can be anything.  An encoded name has no question mark, so the first question mark behind the
stem begins the query; a position has no ampersand, so the first ampersand ends it.  Hence
name, position and right can be read off the URL once the stem is known, and a name that
looks like a query is still a name.

## Main results

* `eq_of_nameSegment`, `eq_of_urlQuery` — the two parts of a URL that vary.
* `previewUrl_unforgeable` — what a URL is made of, and what it tells.
-/

namespace ContentPreview

/-! ## The position -/

theorem sequenceText_eq (sequenceId : Int32) :
    sequenceText sequenceId = toString sequenceId.toInt := by
  unfold sequenceText
  cases sequenceId.toInt <;> rfl

theorem not_mem_sequenceText {c : Char} (hdigit : c.isDigit = false) (hsign : c ≠ '-')
    (sequenceId : Int32) : c ∉ (sequenceText sequenceId).toList := by
  unfold sequenceText
  cases sequenceId.toInt with
  | ofNat n => exact Text.not_mem_decimal hdigit n
  | negSucc n =>
      rw [String.toList_append, List.mem_append, not_or]
      exact ⟨by simpa using hsign, Text.not_mem_decimal hdigit (n + 1)⟩

/-- A number without a sign is not one with a sign. -/
theorem decimal_ne_negative (m n : Nat) : Text.decimal m ≠ "-" ++ Text.decimal n := by
  intro h
  have hsign : '-' ∈ (Text.decimal m).toList := by
    rw [h, String.toList_append]
    exact List.mem_append_left _ List.mem_cons_self
  exact Text.not_mem_decimal rfl m hsign

theorem sequenceText_injective {sequenceId sequenceId' : Int32}
    (h : sequenceText sequenceId = sequenceText sequenceId') : sequenceId = sequenceId' := by
  apply Int32.toInt_inj.1
  unfold sequenceText at h
  cases hvalue : sequenceId.toInt with
  | ofNat m =>
      cases hvalue' : sequenceId'.toInt with
      | ofNat n =>
          rw [hvalue, hvalue'] at h
          rw [Text.decimal_injective h]
      | negSucc n =>
          rw [hvalue, hvalue'] at h
          exact absurd h (decimal_ne_negative _ _)
  | negSucc m =>
      cases hvalue' : sequenceId'.toInt with
      | ofNat n =>
          rw [hvalue, hvalue'] at h
          exact absurd h.symm (decimal_ne_negative _ _)
      | negSucc n =>
          rw [hvalue, hvalue'] at h
          have hdigits := Text.decimal_injective ((String.append_right_inj _).1 h)
          rw [Nat.succ.inj hdigits]

/-! ## The parts of a URL that vary -/

theorem not_mem_nameSegment (name : Option String) : '?' ∉ (nameSegment name).toList := by
  cases name with
  | none => exact List.not_mem_nil
  | some name =>
      intro h
      unfold nameSegment at h
      rw [String.toList_append, List.mem_append] at h
      rcases h with hslash | hname
      · revert hslash
        decide
      · rw [String.toList_ofList] at hname
        exact Text.Percent.not_mem_encode (by decide) name hname

theorem eq_of_nameSegment {name name' : Option String}
    (h : nameSegment name = nameSegment name') : name = name' := by
  have hne (name : String) : "" ≠ "/" ++ String.ofList (Text.Percent.encode name) := by
    intro h
    have hlist := congrArg String.toList h
    rw [String.toList_append] at hlist
    cases hlist
  cases name with
  | none =>
      cases name' with
      | none => rfl
      | some name' => exact absurd h (hne name')
  | some name =>
      cases name' with
      | none => exact absurd h.symm (hne name)
      | some name' =>
          have hencoded := String.ofList_inj.1 ((String.append_right_inj _).1 h)
          rw [Text.Percent.encode_injective hencoded]

/-- The query behind its question mark. -/
def queryTail (sequenceId : Int32) (allowed : Bool) : List Char :=
  "sequence=".toList ++ ((sequenceText sequenceId).toList ++
    '&' :: ("isAllowed=".toList ++ [if allowed then 'y' else 'n']))

theorem toList_urlQuery (sequenceId : Int32) (allowed : Bool) :
    (urlQuery sequenceId allowed).toList = '?' :: queryTail sequenceId allowed := by
  unfold urlQuery queryTail
  rw [String.toList_append, String.toList_append, String.toList_append, List.append_assoc,
    List.append_assoc]
  cases allowed <;> rfl

theorem not_mem_queryTail (sequenceId : Int32) (allowed : Bool) :
    '?' ∉ queryTail sequenceId allowed := by
  have hposition := not_mem_sequenceText (c := '?') rfl (by decide) sequenceId
  unfold queryTail
  cases allowed <;> simp [hposition]

theorem eq_of_queryTail {sequenceId sequenceId' : Int32} {allowed allowed' : Bool}
    (h : queryTail sequenceId allowed = queryTail sequenceId' allowed') :
    sequenceId = sequenceId' ∧ allowed = allowed' := by
  have hposition := not_mem_sequenceText (c := '&') rfl (by decide) sequenceId
  have hright : '&' ∉ "isAllowed=".toList ++ [if allowed then 'y' else 'n'] := by
    cases allowed <;> decide
  have hbehind := List.append_cancel_left h
  obtain ⟨hsame, -, hflag⟩ := (List.append_cons_inj_of_notMem hposition hright).1 hbehind
  refine ⟨sequenceText_injective (String.toList_inj.1 hsame), ?_⟩
  have hletter := List.append_cancel_left hflag
  revert hletter
  cases allowed <;> cases allowed' <;> decide

/-! ## The whole -/

/-- The stem depends on the identifier of the bitstream alone. -/
theorem urlStem_congr {b b' : Bitstream} (hid : b.id = b'.id) (item : Option ItemRef)
    (base : String) : urlStem item b base = urlStem item b' base := by
  unfold urlStem ownerSegment
  rw [hid]

theorem previewUrl_eq (item : Option ItemRef) (b : Bitstream) (base : String) (allowed : Bool) :
    previewUrl item b base allowed =
      urlStem item ⟨b.id, none, "", 0⟩ base ++
        b.name.elim "" (fun name => "/" ++ String.ofList (Text.Percent.encode name)) ++
        "?sequence=" ++ toString b.sequenceId.toInt ++
        "&isAllowed=" ++ if allowed then "y" else "n" := by
  have hstem : urlStem item b base = urlStem item ⟨b.id, none, "", 0⟩ base :=
    urlStem_congr rfl item base
  have hname : nameSegment b.name =
      b.name.elim "" (fun name => "/" ++ String.ofList (Text.Percent.encode name)) := by
    cases b.name <;> rfl
  unfold previewUrl urlQuery
  rw [hstem, hname, sequenceText_eq]
  simp only [String.append_assoc]

/-- The URLs of a bitstream tell its name, its position and the right to read it. -/
theorem eq_of_previewUrl {item : Option ItemRef} (b b' : Bitstream) (hid : b.id = b'.id)
    {base : String} {allowed allowed' : Bool}
    (h : previewUrl item b base allowed = previewUrl item b' base allowed') :
    b.name = b'.name ∧ b.sequenceId = b'.sequenceId ∧ allowed = allowed' := by
  unfold previewUrl at h
  rw [urlStem_congr hid, String.append_assoc, String.append_assoc, String.append_right_inj] at h
  have hlist := congrArg String.toList h
  rw [String.toList_append, String.toList_append, toList_urlQuery, toList_urlQuery] at hlist
  obtain ⟨hname, -, hquery⟩ := (List.append_cons_inj_of_notMem (not_mem_nameSegment _)
    (not_mem_queryTail _ _)).1 hlist
  exact ⟨eq_of_nameSegment (String.toList_inj.1 hname), eq_of_queryTail hquery⟩

/-- **A file name cannot tamper with a URL.**  A URL is a stem that depends on the item, the
identifier and the base path alone, then nothing or `/` and the encoded file name, then the
position and the right to read.  An encoded name consists of ASCII letters, digits, the marks
`-`, `.`, `_`, `~`, separators and percent escapes, and decoding it gives back the bytes of the
name.  So the URLs of a bitstream are the same only for the same name, position and right,
and having no name differs from having an empty one. -/
theorem previewUrl_unforgeable (item : Option ItemRef) (id : BitstreamId) (base : String) :
    (∃ stem : String, ∀ name mimeType sequenceId allowed,
        previewUrl item ⟨id, name, mimeType, sequenceId⟩ base allowed =
          stem ++ name.elim "" (fun name => "/" ++ String.ofList (Text.Percent.encode name)) ++
            "?sequence=" ++ toString sequenceId.toInt ++
            "&isAllowed=" ++ if allowed then "y" else "n") ∧
      (∀ name : String, Text.Percent.IsEncoded (Text.Percent.encode name) ∧
        '?' ∉ Text.Percent.encode name ∧ '#' ∉ Text.Percent.encode name ∧
        '&' ∉ Text.Percent.encode name ∧ ' ' ∉ Text.Percent.encode name ∧
        Text.Percent.decode (Text.Percent.encode name) = name.toByteArray.data.toList) ∧
      ∀ name name' mimeType mimeType' sequenceId sequenceId' allowed allowed',
        previewUrl item ⟨id, name, mimeType, sequenceId⟩ base allowed =
            previewUrl item ⟨id, name', mimeType', sequenceId'⟩ base allowed' ↔
          name = name' ∧ sequenceId = sequenceId' ∧ allowed = allowed' := by
  refine ⟨⟨urlStem item ⟨id, none, "", 0⟩ base, ?_⟩, ?_, ?_⟩
  · intro name mimeType sequenceId allowed
    exact previewUrl_eq item ⟨id, name, mimeType, sequenceId⟩ base allowed
  · intro name
    exact ⟨Text.Percent.isEncoded_encode name, Text.Percent.not_mem_encode (by decide) name,
      Text.Percent.not_mem_encode (by decide) name, Text.Percent.not_mem_encode (by decide) name,
      Text.Percent.not_mem_encode (by decide) name, Text.Percent.decode_encode name⟩
  · intro name name' mimeType mimeType' sequenceId sequenceId' allowed allowed'
    constructor
    · intro h
      exact eq_of_previewUrl ⟨id, name, mimeType, sequenceId⟩ ⟨id, name', mimeType', sequenceId'⟩
        rfl h
    · rintro ⟨rfl, rfl, rfl⟩
      rw [previewUrl_eq, previewUrl_eq]

/-- A name that looks like the end of another URL. -/
example :
    previewUrl none ⟨"5f1c", some "a?sequence=2&isAllowed=y%2F", "text/plain", -1⟩ "" false =
      "/api/core/bitstreams/id/5f1c/a%3Fsequence%3D2%26isAllowed%3Dy%252F" ++
        "?sequence=-1&isAllowed=n" := by
  decide

end ContentPreview
