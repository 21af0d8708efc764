import ContentPreview.Kind

/-!
# What a file name suggests

Two tables look at the end of a file name: one guesses the MIME type, the other knows the
names of archives.  They were made apart, and so a name might be a text for the one and an
archive for the other.  It is not: of two suffixes of one name one is a suffix of the
other, and no ending of a text is comparable in this way with an ending of an archive.  The
order of the entries plays no role.

A guess is an entry of the table, so whatever holds of the kinds of all its MIME types holds
of the kind of a guess.

## Main results

* `comparable_of_hasSuffix` — two endings of one name are comparable.
* `guessMime_of_hasSuffix` — each entry of the table decides alone.
* `hasArchiveExtension_of_plain` — a name that is guessed to be a text is not that of an
  archive.
* `kind_guessMime` — of all guesses, only `text/html` means a page and only `text/plain` a
  text.
-/

namespace ContentPreview

/-- Of two endings of one name, one is an ending of the other. -/
theorem Text.comparable_of_hasSuffix {suffix suffix' name : String}
    (h : hasSuffix suffix name = true) (h' : hasSuffix suffix' name = true) :
    suffix.toList.isSuffixOf suffix'.toList = true ∨
      suffix'.toList.isSuffixOf suffix.toList = true := by
  unfold hasSuffix at h h'
  rw [List.isSuffixOf_iff_suffix] at h h' ⊢
  rw [List.isSuffixOf_iff_suffix]
  exact List.suffix_or_suffix_of_suffix h h'

/-- A guess is taken from the table, where the name ends in what the entry asks for. -/
theorem guessMime_eq (name : String) :
    guessMime name = unknownMime ∨
      ∃ suffix, (suffix, guessMime name) ∈ mimeOfSuffix ∧ Text.hasSuffix suffix name = true := by
  unfold guessMime
  split
  · rename_i suffix mime hfound
    have hsuffix := List.find?_some hfound
    exact Or.inr ⟨suffix, List.mem_of_find?_eq_some hfound, hsuffix⟩
  · exact Or.inl rfl

/-- Entries whose endings can end the same name have the same MIME type. -/
theorem mimes_agree :
    ∀ entry ∈ mimeOfSuffix, ∀ entry' ∈ mimeOfSuffix,
      (entry.1.toList.isSuffixOf entry'.1.toList = true ∨
        entry'.1.toList.isSuffixOf entry.1.toList = true) → entry.2 = entry'.2 := by
  decide

/-- A name that ends in what an entry asks for has the MIME type of that entry, wherever it
stands in the table. -/
theorem guessMime_of_hasSuffix {suffix mime name : String} (hentry : (suffix, mime) ∈ mimeOfSuffix)
    (h : Text.hasSuffix suffix name = true) : guessMime name = mime := by
  unfold guessMime
  split
  · rename_i suffix' mime' hfound
    have hsuffix := List.find?_some hfound
    have hcomparable := Text.comparable_of_hasSuffix hsuffix h
    exact mimes_agree _ (List.mem_of_find?_eq_some hfound) _ hentry hcomparable
  · rename_i hnone
    exact absurd h (List.find?_eq_none.1 hnone _ hentry)

/-- The MIME types that a name can suggest. -/
theorem guessMime_mem (name : String) :
    guessMime name ∈ unknownMime :: mimeOfSuffix.map Prod.snd := by
  rcases guessMime_eq name with hunknown | ⟨suffix, hentry, -⟩
  · rw [hunknown]
    exact List.mem_cons_self
  · exact List.mem_cons_of_mem _ (List.mem_map_of_mem hentry)

/-- No ending of a text is comparable with an ending of an archive. -/
theorem endings_apart :
    ∀ entry ∈ mimeOfSuffix, entry.2 = "text/plain" → ∀ ext ∈ archiveExtensions,
      entry.1.toList.isSuffixOf ("." ++ ext).toList = false ∧
        ("." ++ ext).toList.isSuffixOf entry.1.toList = false := by
  decide

/-- A name that is guessed to be a text is not the name of an archive. -/
theorem hasArchiveExtension_of_plain {name : String} (h : guessMime name = "text/plain") :
    hasArchiveExtension name = false := by
  rcases guessMime_eq name with hunknown | ⟨suffix, hentry, hsuffix⟩
  · rw [h] at hunknown
    exact absurd hunknown (by decide)
  · rw [← Bool.not_eq_true]
    intro harchive
    obtain ⟨ext, hext, hending⟩ := List.any_eq_true.1 harchive
    obtain ⟨hforth, hback⟩ := endings_apart (suffix, guessMime name) hentry h ext hext
    rcases Text.comparable_of_hasSuffix hsuffix hending with hle | hge
    · exact Bool.false_ne_true (hforth.symm.trans hle)
    · exact Bool.false_ne_true (hback.symm.trans hge)

/-- The kinds of the MIME types that are guessed. -/
theorem kind_guessMime (name : String) :
    (Kind.ofMime (guessMime name) = .html ↔ guessMime name = "text/html") ∧
      (Kind.ofMime (guessMime name) = .plainText ↔ guessMime name = "text/plain") := by
  have hall : ∀ mime ∈ unknownMime :: mimeOfSuffix.map Prod.snd,
      (Kind.ofMime mime = .html ↔ mime = "text/html") ∧
        (Kind.ofMime mime = .plainText ↔ mime = "text/plain") := by decide
  exact hall _ (guessMime_mem name)

end ContentPreview
