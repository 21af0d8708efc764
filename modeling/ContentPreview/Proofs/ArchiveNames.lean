import ContentPreview.Proofs.MimeGuess
import ContentPreview.Proofs.Service.Mislabelled
import ContentPreview.Proofs.TextPreview

/-!
# Names of archives

Two tables say which file names are those of archives: the one that guesses MIME types, by
way of the kinds of its guesses, and the one that a plain text is checked against.  The
first knows the double endings of compressed TAR archives in full and abbreviated, the
second in full only; and the second takes everything that is compressed with gzip for an
archive, the first only TAR archives.  There is no other difference.

So a plain text is not refused under every name that is otherwise taken for that of an
archive.  Under an abbreviated ending it is shown whatever it holds, and if it holds an
archive then the bytes of the archive are shown as a text.

## Main definitions

* `IsAbbreviated` — the names with an abbreviated double ending.

## Main results

* `isArchive_guessMime_iff`, `hasArchiveExtension_iff` — the names of archives for the one
  table and for the other.
* `guessed_only_iff`, `listed_only_iff` — the names of archives for only one of them.
* `Service.archive_names_apart` — the same, and what becomes of a text under such a name.
* `Service.archive_shown_as_text` — an archive whose bytes are shown.
-/

namespace ContentPreview

/-! ## The two tables -/

section Tables

variable {name : String}

theorem isArchive_guessMime_iff :
    (Kind.ofMime (guessMime name)).isArchive = true ↔
      ∃ entry ∈ mimeOfSuffix, (Kind.ofMime entry.2).isArchive = true ∧
        Text.hasSuffix entry.1 name = true := by
  constructor
  · intro h
    rcases guessMime_eq name with hunknown | ⟨suffix, hentry, hsuffix⟩
    · rw [hunknown] at h
      exact absurd h (by decide)
    · exact ⟨_, hentry, h, hsuffix⟩
  · rintro ⟨⟨suffix, mime⟩, hentry, harchive, hsuffix⟩
    rw [guessMime_of_hasSuffix hentry hsuffix]
    exact harchive

theorem hasArchiveExtension_iff :
    hasArchiveExtension name = true ↔
      ∃ ext ∈ archiveExtensions, Text.hasSuffix ("." ++ ext) name = true := by
  unfold hasArchiveExtension
  rw [List.any_eq_true]

/-- The double endings of compressed TAR archives, abbreviated. -/
def abbreviatedEndings : List String := [".tgz", ".tbz2"]

/-- A name has an abbreviated double ending. -/
def IsAbbreviated (name : String) : Prop :=
  ∃ short ∈ abbreviatedEndings, Text.hasSuffix short name = true

instance : DecidablePred IsAbbreviated := fun name => by
  unfold IsAbbreviated
  infer_instance

/-- What the endings in the two tables have to do with each other. -/
theorem archive_endings :
    (∀ entry ∈ mimeOfSuffix, (Kind.ofMime entry.2).isArchive = true →
        entry.1 ∈ abbreviatedEndings ∨ ∃ ext ∈ archiveExtensions, entry.1 = "." ++ ext) ∧
      (∀ short ∈ abbreviatedEndings,
        ∃ entry ∈ mimeOfSuffix, (Kind.ofMime entry.2).isArchive = true ∧ entry.1 = short) ∧
      ∀ ext ∈ archiveExtensions, ext = "gz" ∨
        ∃ entry ∈ mimeOfSuffix, (Kind.ofMime entry.2).isArchive = true ∧ entry.1 = "." ++ ext := by
  decide

/-- No name ends both in an abbreviation and in an extension of the list. -/
theorem abbreviated_apart :
    ∀ short ∈ abbreviatedEndings, ∀ ext ∈ archiveExtensions,
      ¬ (short.toList.isSuffixOf ("." ++ ext).toList = true ∨
        ("." ++ ext).toList.isSuffixOf short.toList = true) := by
  decide

theorem hasArchiveExtension_of_isAbbreviated (h : IsAbbreviated name) :
    hasArchiveExtension name = false := by
  obtain ⟨short, hshort, hsuffix⟩ := h
  rw [← Bool.not_eq_true, hasArchiveExtension_iff]
  rintro ⟨ext, hext, hending⟩
  exact abbreviated_apart short hshort ext hext (Text.comparable_of_hasSuffix hsuffix hending)

theorem isArchive_of_isAbbreviated (h : IsAbbreviated name) :
    (Kind.ofMime (guessMime name)).isArchive = true := by
  obtain ⟨short, hshort, hsuffix⟩ := h
  obtain ⟨entry, hentry, harchive, rfl⟩ := archive_endings.2.1 short hshort
  exact isArchive_guessMime_iff.2 ⟨entry, hentry, harchive, hsuffix⟩

/-- The guess and the list agree that a name is that of an archive if it is one for the
guess and is not abbreviated. -/
theorem hasArchiveExtension_of_isArchive (h : (Kind.ofMime (guessMime name)).isArchive = true)
    (hfull : ¬ IsAbbreviated name) : hasArchiveExtension name = true := by
  obtain ⟨entry, hentry, harchive, hsuffix⟩ := isArchive_guessMime_iff.1 h
  rcases archive_endings.1 entry hentry harchive with hshort | ⟨ext, hext, heq⟩
  · exact absurd ⟨entry.1, hshort, hsuffix⟩ hfull
  · exact hasArchiveExtension_iff.2 ⟨ext, hext, heq ▸ hsuffix⟩

/-- The names of archives for the guess only are the abbreviated ones. -/
theorem guessed_only_iff :
    (Kind.ofMime (guessMime name)).isArchive = true ∧ hasArchiveExtension name = false ↔
      IsAbbreviated name := by
  constructor
  · rintro ⟨harchive, hname⟩
    by_contra hfull
    rw [hasArchiveExtension_of_isArchive harchive hfull] at hname
    cases hname
  · intro h
    exact ⟨isArchive_of_isAbbreviated h, hasArchiveExtension_of_isAbbreviated h⟩

/-- The names of archives for the list only are those of what is compressed with gzip and no
TAR archive. -/
theorem listed_only_iff :
    hasArchiveExtension name = true ∧ (Kind.ofMime (guessMime name)).isArchive = false ↔
      Text.hasSuffix ".gz" name = true ∧ Text.hasSuffix ".tar.gz" name = false := by
  have hdouble : (".tar.gz", "application/gzip") ∈ mimeOfSuffix := by decide
  constructor
  · rintro ⟨hname, hguess⟩
    obtain ⟨ext, hext, hending⟩ := hasArchiveExtension_iff.1 hname
    have hother (entry) (hentry : entry ∈ mimeOfSuffix)
        (harchive : (Kind.ofMime entry.2).isArchive = true) :
        Text.hasSuffix entry.1 name = false := by
      rw [← Bool.not_eq_true]
      intro hsuffix
      rw [isArchive_guessMime_iff.2 ⟨entry, hentry, harchive, hsuffix⟩] at hguess
      cases hguess
    rcases archive_endings.2.2 ext hext with rfl | ⟨entry, hentry, harchive, heq⟩
    · exact ⟨hending, hother _ hdouble (by decide)⟩
    · rw [← heq, hother entry hentry harchive] at hending
      cases hending
  · rintro ⟨hsingle, hfull⟩
    refine ⟨hasArchiveExtension_iff.2 ⟨"gz", by decide, hsingle⟩, ?_⟩
    rw [← Bool.not_eq_true, isArchive_guessMime_iff]
    rintro ⟨entry, hentry, harchive, hsuffix⟩
    have honly : ∀ entry ∈ mimeOfSuffix, (Kind.ofMime entry.2).isArchive = true →
        (entry.1.toList.isSuffixOf ".gz".toList = true ∨
          ".gz".toList.isSuffixOf entry.1.toList = true) → entry.1 = ".tar.gz" := by
      decide
    rw [honly entry hentry harchive (Text.comparable_of_hasSuffix hsuffix hsingle),
      hfull] at hsuffix
    cases hsuffix

end Tables

/-! ## Texts under the names of archives -/

namespace Service

/-- **Which texts are refused for their names.**  The names that are guessed to be those of
archives are the names with an archive extension, but for two differences: a name with an
abbreviated double ending has none, and a name in `.gz` has one even if it is not guessed
to be that of an archive, which is so if it does not end in `.tar.gz`.  A plain text under
a name that is guessed to be that of an archive is refused, whatever its content, if the
name is not abbreviated; if it is, the content is shown as the text that it is not. -/
theorem archive_names_apart (name : String) :
    let isGuessed := (Kind.ofMime (guessMime name)).isArchive
    (isGuessed = true ∧ hasArchiveExtension name = false ↔ IsAbbreviated name) ∧
      (hasArchiveExtension name = true ∧ isGuessed = false ↔
        Text.hasSuffix ".gz" name = true ∧ Text.hasSuffix ".tar.gz" name = false) ∧
      ∀ (svc : Service) (b : Bitstream) (s : Stream) (ledger : Ledger),
        b.kind = .plainText → b.nameOrEmpty = name → isGuessed = true →
          (¬ IsAbbreviated name →
            (svc.generate b s).run ledger = (.error b.mislabelling, ledger)) ∧
          (IsAbbreviated name → (svc.generate b s).run ledger =
            (.ok (if s.failure.isSome ∧ s.bytes.length < svc.byteLimit.toNat then []
              else textNode b (truncateText svc.config.maxContentLength
                (Text.Utf8.decodeLossy (s.bytes.take svc.byteLimit.toNat)))), ledger)) := by
  refine ⟨guessed_only_iff, listed_only_iff, ?_⟩
  rintro svc b s ledger htext rfl hguessed
  constructor
  · intro hfull
    have harchive := hasArchiveExtension_of_isArchive hguessed hfull
    exact generate_mislabelled htext harchive s ledger
  · intro hshort
    have hname := hasArchiveExtension_of_isAbbreviated hshort
    rw [generate_plainText htext hname, plainTextPreview_eq]

/-- A text under the full name of an archive, in capitals. -/
theorem archive_names_apart_full :
    let svc : Service := ⟨{}, .unrestricted, {}⟩
    let b : Bitstream := ⟨"t1", some "LOGS.Tar.Gz", "Text/Plain; charset=utf-8", 1⟩
    b.kind = .plainText ∧ (Kind.ofMime (guessMime "LOGS.Tar.Gz")).isArchive = true ∧
      ¬ IsAbbreviated "LOGS.Tar.Gz" ∧
      (svc.generate b (.ofBytes [0x1F, 0x8B])).run {} =
        (.error (.mislabelled "LOGS.Tar.Gz" "Text/Plain; charset=utf-8"), {}) := by
  intro svc b
  have htext : b.kind = .plainText := by decide
  have hguessed : (Kind.ofMime (guessMime "LOGS.Tar.Gz")).isArchive = true := by decide
  have hfull : ¬ IsAbbreviated "LOGS.Tar.Gz" := by decide
  have hall := (archive_names_apart "LOGS.Tar.Gz").2.2 svc b (.ofBytes [0x1F, 0x8B]) {}
  exact ⟨htext, hguessed, hfull, (hall htext rfl hguessed).1 hfull⟩

/-- An empty TAR archive that is compressed with gzip. -/
def compressedArchive : List UInt8 :=
  [31, 139, 8, 0, 0, 0, 0, 0, 2, 3, 99, 96, 24, 5, 163, 96, 20, 140, 84, 0, 0, 46, 175, 181,
   239, 0, 4, 0, 0]

/-- **An archive is shown as a text.**  The name `a.tgz` is guessed to be that of an archive,
and a text under this name is not refused.  What is shown are the bytes of the archive. -/
theorem archive_shown_as_text :
    let svc : Service := ⟨{}, .unrestricted, {}⟩
    let b : Bitstream := ⟨"t1", some "a.tgz", "text/plain", 1⟩
    b.kind = .plainText ∧ (Kind.ofMime (guessMime "a.tgz")).isArchive = true ∧
      hasArchiveExtension "a.tgz" = false ∧
      (svc.generate b (.ofBytes compressedArchive)).run {} =
        (.ok (textNode b (Text.Utf8.decodeLossy compressedArchive)), {}) := by
  intro svc b
  have htext : b.kind = .plainText := by decide
  have hname : hasArchiveExtension "a.tgz" = false := by decide
  refine ⟨htext, by decide, hname, ?_⟩
  have hends : ¬ ((Stream.ofBytes compressedArchive).failure.isSome ∧
      (Stream.ofBytes compressedArchive).bytes.length < svc.byteLimit.toNat) := by decide
  have hshort : (Text.Utf8.decodeLossy compressedArchive).length ≤ svc.config.maxContentLength := by
    decide +kernel
  have hbytes : (Stream.ofBytes compressedArchive).bytes.take svc.byteLimit.toNat =
      compressedArchive := by decide
  rw [generate_plainText htext hname, plainTextPreview_eq, if_neg hends, hbytes,
    truncateText_of_le hshort]

end Service

end ContentPreview
