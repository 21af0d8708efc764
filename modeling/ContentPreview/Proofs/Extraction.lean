import ContentPreview.Archive.Extraction

/-!
# What becomes of listing an archive

The containers describe their members differently, and each is gone through by a loop of
its own, which is left at the first failure of the reader.  Told in one form, a member has
a name, a size and a type, and both loops make the same of it: one turn adds the record of
the member, if it has one (`zipRecords_cons`, `tarRecords_cons`).  So either loop ends with
the listing of all members, or with the error of its format if the reader fails.

A ZIP archive is copied before it is listed, and the copy is made in three steps.  The
error of a listing names the first of them that fails, and otherwise the listing is what
the bytes of the stream are as an archive.  Copying is a loop over the pieces of the stream
with two ways to fail.  Which of them comes first is a matter of lengths: a write fails as
soon as the bytes delivered so far do not fit, and the stream breaks behind all that it
delivers.

A scratch file exists while a ZIP archive is listed and at no other time.

## Main definitions

* `Archive.Member` — a member in the form that the containers share, and
  `Archive.Member.record?` — its record.
* `Archive.Contents.listing?` — the records of a complete archive.
* `Archive.firstFailure?` — the first step that fails on the way to a scratch copy.

## Main results

* `Archive.zipRecords_eq`, `Archive.tarRecords_eq` — the loops over the members.
* `Archive.Member.exists_path_of_record`, `Archive.Contents.exists_member_of_listing` — the
  records of a listing are those of members, and are made of their names.
* `Archive.copyPieces_eq` — what becomes of copying.
* `tryExtract_zip`, `listing_of_tryExtract` — the answer of a listing.
* `tryExtract_ledger` — the scratch files of a listing.
* `extract_run` — the listing at best effort.
-/

namespace ContentPreview

namespace Archive

/-! ## Members and their records -/

/-- A member in the form that the containers share. -/
structure Member where
  name : String
  size : UInt64
  type : MemberType
deriving DecidableEq

/-- A member of a ZIP archive is a file or a directory. -/
def ZipMember.toMember (m : ZipMember) : Member :=
  ⟨m.name, m.size, if m.isDirectory then .directory else .file⟩

/-- The name of a member of a TAR archive is read as UTF-8. -/
def TarMember.toMember (m : TarMember) : Member :=
  ⟨Text.Utf8.decodeLossy m.rawName, m.size, m.type⟩

/-- The record of a member.  Extension headers and the root of the archive have none. -/
def Member.record? (m : Member) : Option Record :=
  match m.type with
  | .extension => none
  | .directory => (Path.normalize m.name).map fun path => .ofRaw path m.size true
  | .file => (Path.normalize m.name).map fun path => .ofRaw path m.size false

/-- The same archive with its members in another form. -/
def Contents.map {μ ν : Type} (f : μ → ν) (c : Contents μ) : Contents ν :=
  ⟨c.members.map f, c.isDamaged⟩

/-- The records of an archive in order, unless it is damaged. -/
def Contents.listing? (c : Contents Member) : Option (List Record) :=
  if c.isDamaged then none else some (c.members.filterMap Member.record?)

/-- The listing of the contents of an archive, or the error of a damaged one. -/
def listingOr (error : ExtractionError) (c : Contents Member) :
    Except ExtractionError (List Record) :=
  match c.listing? with
  | some records => .ok records
  | none => .error error

/-- The record of a member is made of its normalized name. -/
theorem Member.exists_path_of_record {m : Member} {r : Record} (h : m.record? = some r) :
    ∃ path, Path.normalize m.name = some path ∧
      r = .ofRaw path m.size (decide (m.type = .directory)) := by
  unfold Member.record? at h
  cases htype : m.type with
  | extension =>
      rw [htype] at h
      cases h
  | directory =>
      rw [htype] at h
      obtain ⟨path, hpath, heq⟩ := Option.map_eq_some_iff.1 h
      exact ⟨path, hpath, heq.symm⟩
  | file =>
      rw [htype] at h
      obtain ⟨path, hpath, heq⟩ := Option.map_eq_some_iff.1 h
      exact ⟨path, hpath, heq.symm⟩

/-- Every record of a listing is that of a member. -/
theorem Contents.exists_member_of_listing {c : Contents Member} {records : List Record}
    (h : c.listing? = some records) {r : Record} (hr : r ∈ records) :
    ∃ m ∈ c.members, m.record? = some r := by
  unfold Contents.listing? at h
  split at h
  · cases h
  · obtain rfl := Option.some.inj h
    exact List.mem_filterMap.1 hr

theorem listingOr_eq (error : ExtractionError) (c : Contents Member) :
    listingOr error c =
      if c.isDamaged then .error error else .ok (c.members.filterMap Member.record?) := by
  unfold listingOr Contents.listing?
  cases c.isDamaged <;> rfl

/-! ## The loops over the members -/

section Loops

variable {μ : Type} {listed : Array Record}

/-- A loop that adds the record of one member after the other, and is left at the first
failure, ends with the listing or with its error. -/
theorem loop_answers {loop : Array Record → List (Option μ) → Except ExtractionError (List Record)}
    {toMember : μ → Member} {error : ExtractionError}
    (hend : ∀ listed, loop listed [] = .ok listed.toList)
    (hdamage : ∀ listed rest, loop listed (none :: rest) = .error error)
    (hturn : ∀ listed m rest,
      loop listed (some m :: rest) = loop (listed ++ (toMember m).record?.toList) rest)
    (c : Contents μ) : loop #[] c.answers = listingOr error (c.map toMember) := by
  obtain ⟨members, isDamaged⟩ := c
  have hgo (listed : Array Record) :
      loop listed (Contents.answers ⟨members, isDamaged⟩) =
        if isDamaged then .error error
        else .ok (listed.toList ++ (members.map toMember).filterMap Member.record?) := by
    induction members generalizing listed with
    | nil =>
        cases isDamaged with
        | true => exact hdamage listed []
        | false =>
            rw [List.map_nil, List.filterMap_nil, List.append_nil]
            exact hend listed
    | cons m rest ih =>
        change loop listed (some m :: Contents.answers ⟨rest, isDamaged⟩) = _
        rw [hturn, ih, List.map_cons, List.filterMap_cons]
        cases (toMember m).record? <;> simp
  rw [hgo, listingOr_eq]
  rfl

/-- One turn of the loop over a ZIP archive. -/
theorem zipRecords_cons (m : ZipMember) (rest : List (Option ZipMember)) :
    zipRecords listed (some m :: rest) =
      zipRecords (listed ++ m.toMember.record?.toList) rest := by
  obtain ⟨name, size, isDirectory⟩ := m
  rw [zipRecords]
  unfold ZipMember.toMember Member.record?
  cases isDirectory <;> cases Path.normalize name <;> simp

/-- One turn of the loop over a TAR archive. -/
theorem tarRecords_cons (m : TarMember) (rest : List (Option TarMember)) :
    tarRecords listed (some m :: rest) =
      tarRecords (listed ++ m.toMember.record?.toList) rest := by
  obtain ⟨rawName, size, type⟩ := m
  rw [tarRecords]
  unfold TarMember.toMember Member.record?
  cases type <;> cases Path.normalize (Text.Utf8.decodeLossy rawName) <;> simp [Record.ofRaw]

theorem zipRecords_eq (c : Contents ZipMember) :
    zipRecords #[] c.answers = listingOr .invalidZip (c.map ZipMember.toMember) :=
  loop_answers (fun _ => rfl) (fun _ _ => rfl) (fun _ => zipRecords_cons) c

theorem tarRecords_eq (c : Contents TarMember) :
    tarRecords #[] c.answers = listingOr .invalidTar (c.map TarMember.toMember) :=
  loop_answers (fun _ => rfl) (fun _ _ => rfl) (fun _ => tarRecords_cons) c

end Loops

/-! ## The way to a scratch copy -/

/-- How copying a stream fails: for want of room, or else as the stream breaks. -/
def copyFailure? (space : ScratchSpace) (s : Stream) : Option String :=
  (if space.room < s.bytes.length then space.writeFailure else none).or s.failure

/-- The steps of preparing a scratch copy in their order, each with its failure if it has
one. -/
def preparation (space : ScratchSpace) (s : Stream) : List (CopyStage × Option String) :=
  [(.create, space.createFailure), (.copy, copyFailure? space s), (.rewind, space.seekFailure)]

/-- The first step of the preparation that fails. -/
def firstFailure? (space : ScratchSpace) (s : Stream) : Option (CopyStage × String) :=
  (preparation space s).findSome? fun (stage, failure?) => failure?.map (stage, ·)

/-- Copying goes on until the pieces run out or there is no room. -/
theorem copyPieces_eq (space : ScratchSpace) (failure : Option String) (room : Nat)
    (pieces : List (List UInt8)) :
    copyPieces space failure room pieces =
      match (if room < pieces.flatten.length then space.writeFailure else none).or failure with
      | some reason => .error (.io .copy reason)
      | none => .ok pieces.flatten := by
  induction pieces generalizing room with
  | nil =>
      rw [List.flatten_nil, List.length_nil, if_neg (Nat.not_lt_zero room), Option.none_or]
      unfold copyPieces
      cases failure <;> rfl
  | cons piece rest ih =>
      rw [List.flatten_cons, List.length_append]
      unfold copyPieces
      cases hwrite : space.writeFailure with
      | none =>
          dsimp only
          rw [ih, hwrite, ite_self, ite_self]
          cases failure <;> rfl
      | some reason =>
          dsimp only
          by_cases hfull : room < piece.length
          · rw [if_pos hfull, if_pos (by omega)]
            rfl
          · rw [if_neg hfull, ih, hwrite]
            by_cases hlater : room - piece.length < rest.flatten.length
            · rw [if_pos hlater, if_pos (by omega)]
              rfl
            · rw [if_neg hlater, if_neg (by omega)]
              cases failure <;> rfl

theorem listingOr_ne_io {c : Contents Member} {stage : CopyStage} {reason : String} :
    listingOr .invalidZip c ≠ .error (.io stage reason) := by
  unfold listingOr
  cases c.listing? <;> simp

theorem listing_of_listingOr {error : ExtractionError} {c : Contents Member}
    {records : List Record}
    (h : listingOr error c = .ok records) : c.listing? = some records := by
  unfold listingOr at h
  split at h
  · rename_i listed hlisted
    rw [hlisted, Except.ok.inj h]
  · cases h

end Archive

/-! ## Listings -/

section Listing

variable (x : Extractor) (format : ArchiveFormat) (s : Stream) (ledger : Ledger)

/-- A listing of a ZIP archive fails at the first step that fails, and otherwise it is
what the reader makes of the bytes of the stream. -/
theorem tryExtract_zip :
    ((tryExtract x .zip s).run ledger).1 =
      match Archive.firstFailure? x.scratch s with
      | some (stage, reason) => .error (.io stage reason)
      | none =>
        if x.scratch.failsLater then .error .invalidZip
        else Archive.listingOr .invalidZip ((x.readers.zip s.bytes).map (·.toMember)) := by
  unfold tryExtract Extractor.listZip Archive.firstFailure? Archive.preparation
  cases hcreate : x.scratch.createFailure with
  | some reason => rfl
  | none =>
      change (Archive.scratchCopy x.scratch s).bind (fun bytes =>
        Archive.zipRecords #[] (x.readers.zip bytes).answers) = _
      unfold Archive.scratchCopy Archive.copyFailure? Stream.bytes
      rw [Archive.copyPieces_eq, ← Archive.zipRecords_eq]
      generalize (if x.scratch.room < s.pieces.flatten.length then x.scratch.writeFailure
        else none).or s.failure = copying
      cases copying with
      | some reason => rfl
      | none =>
          cases x.scratch.seekFailure with
          | some reason => rfl
          | none => cases x.scratch.failsLater <;> rfl

/-- A listing of a TAR archive is what the reader makes of the stream. -/
theorem tryExtract_tar (compression : Compression) :
    ((tryExtract x (.tar compression) s).run ledger).1 =
      Archive.listingOr .invalidTar ((x.readers.tar compression s).map (·.toMember)) :=
  Archive.tarRecords_eq _

theorem tryExtract_zip_io_iff {stage : CopyStage} {reason : String} :
    ((tryExtract x .zip s).run ledger).1 = .error (.io stage reason) ↔
      Archive.firstFailure? x.scratch s = some (stage, reason) := by
  rw [tryExtract_zip]
  cases Archive.firstFailure? x.scratch s with
  | some failure =>
      obtain ⟨failed, why⟩ := failure
      simp
  | none =>
      cases x.scratch.failsLater with
      | true => simp
      | false => simp [Archive.listingOr_ne_io]

/-- The answer of a listing does not depend on the ledger. -/
theorem tryExtract_answer (ledger' : Ledger) :
    ((tryExtract x format s).run ledger).1 = ((tryExtract x format s).run ledger').1 := by
  cases format with
  | tar compression => rfl
  | zip => rw [tryExtract_zip, tryExtract_zip]

/-- The scratch files of a listing: one for a ZIP archive, unless it cannot be created, and
none of them is left. -/
theorem tryExtract_ledger :
    ((tryExtract x format s).run ledger).2 =
      ⟨ledger.created + (if format = .zip ∧ x.scratch.createFailure = none then 1 else 0),
        ledger.live⟩ := by
  cases format with
  | tar compression => rfl
  | zip =>
      unfold tryExtract Extractor.listZip
      cases x.scratch.createFailure <;> rfl

/-- A listing at best effort is empty where the listing fails. -/
theorem extract_run :
    (extract x format s).run ledger =
      (((tryExtract x format s).run ledger).1.toOption.getD [],
        ((tryExtract x format s).run ledger).2) := by
  unfold extract
  rw [StateT.run_bind]
  rcases (tryExtract x format s).run ledger with ⟨e | records, ledger'⟩ <;> rfl

/-- The records of an archive do not depend on the ledger. -/
theorem extract_answer (ledger' : Ledger) :
    ((extract x format s).run ledger).1 = ((extract x format s).run ledger').1 := by
  rw [extract_run, extract_run, tryExtract_answer x format s ledger ledger']

theorem extract_ledger :
    ((extract x format s).run ledger).2 = ((tryExtract x format s).run ledger).2 := by
  rw [extract_run]

theorem extract_eq_nil_iff :
    ((extract x format s).run ledger).1 = [] ↔
      (∃ e, ((tryExtract x format s).run ledger).1 = .error e) ∨
        ((tryExtract x format s).run ledger).1 = .ok [] := by
  rw [extract_run]
  cases ((tryExtract x format s).run ledger).1 with
  | error e => simp [Except.toOption]
  | ok records => simp [Except.toOption]

variable {x format s ledger} {records : List Record}

theorem extract_of_tryExtract (h : ((tryExtract x format s).run ledger).1 = .ok records) :
    ((extract x format s).run ledger).1 = records := by
  rw [extract_run, h]
  rfl

theorem extract_of_tryExtract_error {e : ExtractionError}
    (h : ((tryExtract x format s).run ledger).1 = .error e) :
    ((extract x format s).run ledger).1 = [] := by
  rw [extract_run, h]
  rfl

/-- The records of an archive are the listing of some members. -/
theorem listing_of_tryExtract (h : ((tryExtract x format s).run ledger).1 = .ok records) :
    ∃ c : Archive.Contents Archive.Member, c.listing? = some records := by
  cases format with
  | tar compression =>
      rw [tryExtract_tar] at h
      exact ⟨_, Archive.listing_of_listingOr h⟩
  | zip =>
      rw [tryExtract_zip] at h
      cases hfailure : Archive.firstFailure? x.scratch s with
      | some failure =>
          rw [hfailure] at h
          cases h
      | none =>
          rw [hfailure] at h
          cases hlater : x.scratch.failsLater with
          | true =>
              rw [hlater] at h
              cases h
          | false =>
              rw [hlater] at h
              exact ⟨_, Archive.listing_of_listingOr h⟩

end Listing

end ContentPreview
