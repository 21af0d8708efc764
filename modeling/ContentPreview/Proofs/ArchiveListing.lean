import ContentPreview.Proofs.Extraction
import ContentPreview.Proofs.Path
import Mathlib.Data.List.Forall2

/-!
# A listing is complete or missing

The reader of an archive delivers members one after the other, up to a regular end or to
damage.  If it ends in damage there is no listing, however much was delivered before.
Otherwise every member has its record in its turn, with two exceptions: headers that
describe another member, and members whose name names no place, such as the root of the
archive.  Names are not compared, so a repeated name has as many records as members.

The formats share the rules for one member, each in a loop of its own.  They differ in
what a reader delivers: only TAR archives hold headers that describe other members, and
only a ZIP archive is copied first, which can fail before any reader is asked.  Of the
readers themselves nothing is used but that they deliver finitely many members, which then
end normally or in damage.

## Main definitions

* `Archive.Member.IsListed`, `Archive.Member.DescribedBy` — which members have a record,
  and what it tells.
* `Archive.IsListing` — the records of a sequence of members, in its order.
* `Archive.contentsOf`, `Archive.unreadable?` — what the reader of a format delivers, and
  why it gets nothing to read.

## Main results

* `Archive.isListing_filterMap` — the records of any sequence of members.
* `tryExtract_eq` — the answer of a listing, for all formats.
* `listing_complete_or_missing` — a listing is complete, in order, or not there.
-/

namespace ContentPreview

namespace Archive

/-! ## One member -/

namespace Member

variable {m : Member} {r : Record}

/-- The member is none that describes another, and its name names a place. -/
def IsListed (m : Member) : Prop := m.type ≠ .extension ∧ Path.components m.name ≠ []

instance : DecidablePred IsListed := fun m => by
  unfold IsListed
  infer_instance

/-- What the record of a member tells of it. -/
structure DescribedBy (m : Member) (r : Record) : Prop where
  place : Path.components r.path = Path.components m.name
  kind : r.isDirectory = true ↔ m.type = .directory ∨ Record.endsInSeparator m.name = true
  size : r.size = if r.isDirectory then 0 else m.size

theorem record?_eq (h : m.type ≠ .extension) :
    m.record? = (Path.normalize m.name).map fun path =>
      .ofRaw path m.size (decide (m.type = .directory)) := by
  unfold record?
  cases htype : m.type with
  | file => rfl
  | directory => rfl
  | extension => exact absurd htype h

theorem record?_eq_none_iff : m.record? = none ↔ ¬ m.IsListed := by
  unfold IsListed
  by_cases htype : m.type = .extension
  · have hnone : m.record? = none := by
      unfold record?
      rw [htype]
    exact iff_of_true hnone fun hlisted => hlisted.1 htype
  · rw [record?_eq htype, Option.map_eq_none_iff, Path.normalize_eq_none_iff]
    simp [htype]

theorem describedBy_of_record (h : m.record? = some r) : m.DescribedBy r := by
  obtain ⟨path, hpath, rfl⟩ := exists_path_of_record h
  refine ⟨?_, ?_, Record.size_ofRaw _ _ _⟩
  · rw [Path.components_ofRaw, Path.components_of_normalize hpath]
  · rw [Record.isDirectory_ofRaw, Path.endsInSeparator_of_normalize hpath]
    simp

end Member

/-! ## Sequences of members -/

/-- The records are those of the members that have one, each in its turn. -/
def IsListing (members : List Member) (records : List Record) : Prop :=
  List.Forall₂ Member.DescribedBy (members.filter Member.IsListed) records

theorem isListing_filterMap (members : List Member) :
    IsListing members (members.filterMap Member.record?) := by
  unfold IsListing
  induction members with
  | nil => exact .nil
  | cons m rest ih =>
      cases hrecord : m.record? with
      | none =>
          have hnot : ¬ m.IsListed := Member.record?_eq_none_iff.1 hrecord
          rw [List.filterMap_cons_none hrecord, List.filter_cons_of_neg (by simpa using hnot)]
          exact ih
      | some r =>
          have hlisted : m.IsListed := by
            by_contra hnot
            rw [Member.record?_eq_none_iff.2 hnot] at hrecord
            cases hrecord
          rw [List.filterMap_cons_some hrecord, List.filter_cons_of_pos (by simpa using hlisted)]
          exact .cons (Member.describedBy_of_record hrecord) ih

variable {error : ExtractionError} {c : Contents Member}

theorem listingOr_of_damaged (h : c.isDamaged = true) : listingOr error c = .error error := by
  rw [listingOr_eq, if_pos h]

theorem listingOr_of_not_damaged (h : c.isDamaged = false) :
    listingOr error c = .ok (c.members.filterMap Member.record?) := by
  rw [listingOr_eq, h]
  rfl

/-! ## Reading a stream -/

/-- What the reader of a format delivers of a stream. -/
def contentsOf (readers : Readers) (format : ArchiveFormat) (s : Stream) : Contents Member :=
  match format with
  | .zip => (readers.zip s.bytes).map (·.toMember)
  | .tar compression => (readers.tar compression s).map (·.toMember)

/-- No member of a ZIP archive describes another one. -/
theorem type_ne_extension_of_mem_zip {readers : Readers} {s : Stream} {m : Member}
    (h : m ∈ (contentsOf readers .zip s).members) : m.type ≠ .extension := by
  obtain ⟨entry, -, rfl⟩ := List.mem_map.1 h
  unfold ZipMember.toMember
  cases entry.isDirectory <;> simp

/-- The error of a damaged archive. -/
def damageOf : ArchiveFormat → ExtractionError
  | .zip => .invalidZip
  | .tar _ => .invalidTar

/-- Why a reader gets nothing to read: the copy of a ZIP archive cannot be made, or fails
when it is read. -/
def unreadable? (space : ScratchSpace) (format : ArchiveFormat) (s : Stream) :
    Option ExtractionError :=
  match format with
  | .zip =>
    match firstFailure? space s with
    | some (stage, reason) => some (.io stage reason)
    | none => if space.failsLater then some .invalidZip else none
  | .tar _ => none

end Archive

section Answer

variable (x : Extractor) (format : ArchiveFormat) (s : Stream) (ledger : Ledger)

/-- What listing an archive answers is what its reader delivers, if there is anything to
read. -/
theorem tryExtract_eq :
    ((tryExtract x format s).run ledger).1 =
      match Archive.unreadable? x.scratch format s with
      | some e => .error e
      | none =>
        Archive.listingOr (Archive.damageOf format) (Archive.contentsOf x.readers format s) := by
  cases format with
  | tar compression => exact tryExtract_tar x s ledger compression
  | zip =>
      rw [tryExtract_zip]
      unfold Archive.unreadable?
      cases Archive.firstFailure? x.scratch s with
      | some failure => rfl
      | none => cases x.scratch.failsLater <;> rfl

/-- An archive that cannot be read, or is damaged, has an error for its answer. -/
theorem tryExtract_of_failed
    (h : (Archive.unreadable? x.scratch format s).isSome = true ∨
      (Archive.contentsOf x.readers format s).isDamaged = true) :
    ∃ e, ((tryExtract x format s).run ledger).1 = .error e := by
  rw [tryExtract_eq]
  cases hunreadable : Archive.unreadable? x.scratch format s with
  | some e => exact ⟨e, rfl⟩
  | none =>
      have hdamaged : (Archive.contentsOf x.readers format s).isDamaged = true := by
        simpa [hunreadable] using h
      exact ⟨_, Archive.listingOr_of_damaged hdamaged⟩

/-- Any other archive has the listing of all its members for its answer. -/
theorem tryExtract_of_sound (hreadable : Archive.unreadable? x.scratch format s = none)
    (hsound : (Archive.contentsOf x.readers format s).isDamaged = false) :
    ∃ records, ((tryExtract x format s).run ledger).1 = .ok records ∧
      Archive.IsListing (Archive.contentsOf x.readers format s).members records := by
  rw [tryExtract_eq, hreadable]
  exact ⟨_, Archive.listingOr_of_not_damaged hsound, Archive.isListing_filterMap _⟩

/-- **A listing is complete or missing.**  Whatever members a reader delivers, they have
no listing if they end in damage, and otherwise the listing has the record of every
member that is no header of another and whose name names a place, each in its turn: a
directory exactly if the member is one or its name ends in a separator, without size if
it is a directory and with the size of the member if not.  The loop over a ZIP archive and
that over a TAR archive both end so.  Hence with any readers an archive of any format that
cannot be read, or is damaged anywhere, has an error for its answer and no records at best
effort; and any other archive has the listing of all its members for both.  The members of
a ZIP archive are never headers of others. -/
theorem listing_complete_or_missing :
    let contents := Archive.contentsOf x.readers format s
    let answer := ((tryExtract x format s).run ledger).1
    let bestEffort := ((extract x format s).run ledger).1
    (∀ (error : ExtractionError) (c : Archive.Contents Archive.Member),
        (c.isDamaged = true → Archive.listingOr error c = .error error) ∧
        (c.isDamaged = false → ∃ records, Archive.listingOr error c = .ok records ∧
          Archive.IsListing c.members records)) ∧
      (∀ c : Archive.Contents Archive.ZipMember, Archive.zipRecords #[] c.answers =
        Archive.listingOr .invalidZip (c.map (·.toMember))) ∧
      (∀ c : Archive.Contents Archive.TarMember, Archive.tarRecords #[] c.answers =
        Archive.listingOr .invalidTar (c.map (·.toMember))) ∧
      ((Archive.unreadable? x.scratch format s).isSome = true ∨ contents.isDamaged = true →
        (∃ e, answer = .error e) ∧ bestEffort = []) ∧
      (Archive.unreadable? x.scratch format s = none → contents.isDamaged = false →
        ∃ records, answer = .ok records ∧ bestEffort = records ∧
          Archive.IsListing contents.members records) ∧
      (format = .zip → ∀ m ∈ contents.members, m.type ≠ .extension) := by
  intro contents answer bestEffort
  refine ⟨?_, Archive.zipRecords_eq, Archive.tarRecords_eq, ?_, ?_, ?_⟩
  · intro error c
    exact ⟨Archive.listingOr_of_damaged, fun hc =>
      ⟨_, Archive.listingOr_of_not_damaged hc, Archive.isListing_filterMap c.members⟩⟩
  · intro hfailed
    obtain ⟨e, he⟩ := tryExtract_of_failed x format s ledger hfailed
    exact ⟨⟨e, he⟩, extract_of_tryExtract_error he⟩
  · intro hreadable hsound
    obtain ⟨records, hok, hlisting⟩ := tryExtract_of_sound x format s ledger hreadable hsound
    exact ⟨records, hok, extract_of_tryExtract hok, hlisting⟩
  · rintro rfl m hm
    exact Archive.type_ne_extension_of_mem_zip hm

end Answer

/-- The header of a member of a TAR archive, with a size of one digit. -/
def plainTarHeader (name : List UInt8) (letter sizeDigit : UInt8) (checksum : List UInt8) :
    List UInt8 :=
  name ++ List.replicate (124 - name.length) 0 ++ sizeDigit :: List.replicate 23 0 ++
    checksum ++ List.replicate (8 - checksum.length) 0 ++ letter :: List.replicate 355 0

/-- A TAR archive with a header of global attributes, a directory `./d`, the root `./`, a
file `a` of one byte, a file `x/` of two, and an empty file `a`. -/
def mixedArchive : List UInt8 :=
  plainTarHeader [112, 97, 120] 103 48 [49, 51, 52, 48] ++
    plainTarHeader [46, 47, 100] 53 48 [49, 48, 52, 54] ++
    plainTarHeader [46, 47] 48 48 [54, 55, 53] ++
    plainTarHeader [97] 48 49 [55, 48, 50] ++ List.replicate 512 120 ++
    plainTarHeader [120, 47] 48 50 [49, 48, 49, 49] ++ List.replicate 512 120 ++
    plainTarHeader [97] 48 48 [55, 48, 49]

/-- Two members have no record and one name has two; and the same archive cut short in its
third header, which is damage behind two members. -/
theorem listing_complete_or_missing_mixed :
    let format := ArchiveFormat.tar .uncompressed
    let s := Stream.ofBytes mixedArchive
    let short := Stream.ofBytes (mixedArchive.take 1100)
    let records :=
      [Record.directory "d", Record.file "a" 1, Record.directory "x", Record.file "a" 0]
    Archive.unreadable? {} format s = none ∧
      (Archive.contentsOf {} format s).isDamaged = false ∧
      ((tryExtract {} format s).run {}).1 = .ok records ∧
      Archive.IsListing (Archive.contentsOf {} format s).members records ∧
      (Archive.contentsOf {} format short).members.length = 2 ∧
      (Archive.contentsOf {} format short).isDamaged = true ∧
      ((extract {} format short).run {}).1 = [] := by
  intro format s short records
  have hfound : ((tryExtract {} format s).run {}).1.toOption = some records := by decide +kernel
  have hdamaged : (Archive.contentsOf {} format short).members.length = 2 ∧
      (Archive.contentsOf {} format short).isDamaged = true := by decide +kernel
  have hall := listing_complete_or_missing {} format s {}
  have hnone := (listing_complete_or_missing {} format short {}).2.2.2.1 (Or.inr hdamaged.2)
  have hsound : (Archive.contentsOf {} format s).isDamaged = false := by
    cases hend : (Archive.contentsOf {} format s).isDamaged with
    | false => rfl
    | true =>
        obtain ⟨e, he⟩ := (hall.2.2.2.1 (Or.inr hend)).1
        rw [he] at hfound
        cases hfound
  obtain ⟨listed, hanswer, -, hlisting⟩ := hall.2.2.2.2.1 rfl hsound
  obtain rfl : listed = records := by
    rw [hanswer] at hfound
    exact Option.some.inj hfound
  exact ⟨rfl, hsound, hanswer, hlisting, hdamaged.1, hdamaged.2, hnone.2⟩

end ContentPreview
