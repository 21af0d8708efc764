import ContentPreview.Proofs.Bounds
import ContentPreview.Proofs.Extraction
import ContentPreview.Proofs.Path
import ContentPreview.Proofs.Service.Effect
import ContentPreview.Proofs.Tree.Listing

/-!
# The preview of an archive and its lines

An archive can be shown as a tree or as lines of text, and the two agree: the lines
are read back as the records, and make the tree that is shown.

Names of members come from outside and may be anything.  A line has no room for an
empty path, for a separator at the end of a path, or for the size of a directory, so
what has to be shown is that no member gives such a record.  A name is stripped of
separators and `./` steps at its front, and is dropped if nothing is left; hence a
path that is kept begins with some other character, which no cut at its end can reach.
The readers of archives are those of the service, and may be any: nothing is used about
them but that they deliver finitely many members with names, sizes and types.

## Main results

* `Archive.Contents.isNormal_of_listing` — every record of a listing has a line of its
  own.
* `generate_agrees_with_lines` — the lines of an archive make the preview of it.
-/

namespace ContentPreview

/-! ## Records of members -/

/-- A limited listing has lines if the listing has. -/
theorem isNormal_limitLeaves {max : Nat} {records : List Record}
    (h : ∀ r ∈ records, r.IsNormal) : ∀ r ∈ limitLeaves max records, r.IsNormal := by
  intro r hr
  rcases mem_limitLeaves hr with hmem | rfl
  · exact h r hmem
  · exact Record.isNormal_tooManyFiles

namespace Archive

theorem Member.isNormal_of_record {m : Member} {r : Record} (h : m.record? = some r) :
    r.IsNormal := by
  obtain ⟨path, hpath, rfl⟩ := m.exists_path_of_record h
  exact Record.isNormal_ofRaw (Path.exists_ne_separator_of_normalize hpath) m.size _

/-- Whatever members an archive has, the records of its listing have lines. -/
theorem Contents.isNormal_of_listing {c : Contents Member} {records : List Record}
    (h : c.listing? = some records) : ∀ r ∈ records, r.IsNormal := by
  intro r hr
  obtain ⟨m, -, hm⟩ := c.exists_member_of_listing h hr
  exact m.isNormal_of_record hm

end Archive

/-! ## The preview -/

namespace Service

variable {svc : Service} {b : Bitstream} {format : ArchiveFormat} {s : Stream}

/-- The preview of an archive is the tree of its limited listing. -/
theorem generate_archive (hformat : b.kind.archiveFormat = some format) (s : Stream)
    (ledger : Ledger) :
    ((svc.generate b s).run ledger).1 =
      .ok (materialize (limitLeaves svc.config.maxLeafCount
        ((extract svc.extractor format s).run ledger).1)) := by
  unfold generate
  cases hkind : b.kind with
  | zipArchive =>
      rw [hkind] at hformat
      cases hformat
      rfl
  | tarArchive compression =>
      rw [hkind] at hformat
      cases hformat
      rfl
  | plainText =>
      rw [hkind] at hformat
      cases hformat
  | html =>
      rw [hkind] at hformat
      cases hformat
  | unsupported =>
      rw [hkind] at hformat
      cases hformat

/-- **The lines of an archive make the preview of it.**  If an archive can be listed, with
whatever readers, each line of its limited listing, that for files left out included, is read
back as the record that it was written for, and the lines together make the roots that a
preview of the archive under the same bound shows, in the same order. -/
theorem generate_agrees_with_lines {records : List Record} {ledger : Ledger}
    (hformat : b.kind.archiveFormat = some format)
    (hlisted : ((tryExtract svc.extractor format s).run ledger).1 = .ok records) :
    let listed := limitLeaves svc.config.maxLeafCount records
    (∀ r ∈ listed, Record.parse r.line = .ok r) ∧
      ∃ roots, materializeLines (listed.map Record.line) = .ok roots ∧
        ∀ ledger', ((svc.generate b s).run ledger').1 = .ok roots := by
  intro listed
  obtain ⟨c, hc⟩ := listing_of_tryExtract hlisted
  have hnormal : ∀ r ∈ listed, r.IsNormal :=
    isNormal_limitLeaves (Archive.Contents.isNormal_of_listing hc)
  refine ⟨fun r hr => Record.parse_line (hnormal r hr), materialize listed, ?_, ?_⟩
  · unfold materializeLines
    rw [parseAll_map_line hnormal]
    rfl
  · intro ledger'
    rw [generate_answer s ledger' ledger, generate_archive hformat, extract_of_tryExtract hlisted]

/-- A ZIP archive with the members `./a|1//`, `/./b` of seven bytes and `c` of one byte. -/
def awkwardArchive : List UInt8 :=
  [80, 75, 3, 4, 20, 0, 0, 0, 0, 0, 0, 0, 33, 0, 0, 0, 0, 0, 0, 0, 0, 0, 0, 0, 0, 0, 7, 0, 0, 0,
   46, 47, 97, 124, 49, 47, 47, 80, 75, 3, 4, 20, 0, 0, 0, 0, 0, 0, 0, 33, 0, 0, 0, 0, 0, 0, 0,
   0, 0, 7, 0, 0, 0, 4, 0, 0, 0, 47, 46, 47, 98, 80, 75, 3, 4, 20, 0, 0, 0, 0, 0, 0, 0, 33, 0, 0,
   0, 0, 0, 0, 0, 0, 0, 1, 0, 0, 0, 1, 0, 0, 0, 99, 80, 75, 1, 2, 20, 0, 20, 0, 0, 0, 0, 0, 0, 0,
   33, 0, 0, 0, 0, 0, 0, 0, 0, 0, 0, 0, 0, 0, 7, 0, 0, 0, 0, 0, 0, 0, 0, 0, 0, 0, 0, 0, 0, 0, 0,
   0, 46, 47, 97, 124, 49, 47, 47, 80, 75, 1, 2, 20, 0, 20, 0, 0, 0, 0, 0, 0, 0, 33, 0, 0, 0, 0,
   0, 0, 0, 0, 0, 7, 0, 0, 0, 4, 0, 0, 0, 0, 0, 0, 0, 0, 0, 0, 0, 0, 0, 37, 0, 0, 0, 47, 46, 47,
   98, 80, 75, 1, 2, 20, 0, 20, 0, 0, 0, 0, 0, 0, 0, 33, 0, 0, 0, 0, 0, 0, 0, 0, 0, 1, 0, 0, 0,
   1, 0, 0, 0, 0, 0, 0, 0, 0, 0, 0, 0, 0, 0, 71, 0, 0, 0, 99, 80, 75, 5, 6, 0, 0, 0, 0, 3, 0, 3,
   0, 150, 0, 0, 0, 102, 0, 0, 0, 0, 0]

/-- Names with separators at both ends and a field separator, with one file shown. -/
theorem generate_agrees_with_lines_awkward :
    let svc : Service := ⟨⟨⟨1, 2000⟩, true, false⟩, .unrestricted, {}⟩
    let b : Bitstream := ⟨"b", some "a.zip", "application/zip", 1⟩
    let s := Stream.ofBytes awkwardArchive
    let records := [Record.directory "a|1/", Record.file "b" 7, Record.file "c" 1]
    b.kind.archiveFormat = some .zip ∧
      ((tryExtract svc.extractor .zip s).run {}).1 = .ok records ∧
      (limitLeaves 1 records).map Record.line = ["a|1/|0", "b|7", "...too many files...|0"] ∧
      (∀ r ∈ limitLeaves 1 records, Record.parse r.line = .ok r) ∧
      ∃ roots, materializeLines ["a|1/|0", "b|7", "...too many files...|0"] = .ok roots ∧
        ((svc.generate b s).run {}).1 = .ok roots := by
  intro svc b s records
  have hformat : b.kind.archiveFormat = some .zip := by decide
  have hfound : ((tryExtract svc.extractor .zip s).run {}).1.toOption = some records := by
    decide +kernel
  have hlisted : ((tryExtract svc.extractor .zip s).run {}).1 = .ok records := by
    cases hanswer : ((tryExtract svc.extractor .zip s).run {}).1 with
    | error e =>
        rw [hanswer] at hfound
        cases hfound
    | ok found =>
        rw [hanswer] at hfound
        exact congrArg Except.ok (Option.some.inj hfound)
  have hlines : (limitLeaves 1 records).map Record.line =
      ["a|1/|0", "b|7", "...too many files...|0"] := by decide
  obtain ⟨hparsed, hroots⟩ := generate_agrees_with_lines hformat hlisted
  rw [show svc.config.maxLeafCount = 1 from rfl, hlines] at hroots
  obtain ⟨roots, hmade, hshown⟩ := hroots
  exact ⟨hformat, hlisted, hlines, hparsed, roots, hmade, hshown {}⟩

end Service

end ContentPreview
