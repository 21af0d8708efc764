import ContentPreview.Archive.Bzip2
import ContentPreview.Archive.Gzip
import ContentPreview.Archive.Tar
import ContentPreview.Archive.Zip
import ContentPreview.Kind
import ContentPreview.Stream

/-!
# Listing an archive

From a stream and a container format to the records of the archive.  A TAR
archive is listed while it is read; a ZIP archive is copied to a scratch file
first, which exists only for the time of the listing.

A listing is all or nothing: the first failure of a reader ends it, whatever
was listed before.  `tryExtract` says what went wrong, `extract` puts an empty
listing in its place.

## Main definitions

* `ExtractionError` — why an archive has no listing.
* `Archive.zipRecords`, `Archive.tarRecords` — the records of what a reader
  delivers.
* `Extractor` — the readers and the scratch space of listings.
* `tryExtract`, `extract` — the listing of an archive.
-/

namespace ContentPreview

/-- The steps of preparing a scratch copy. -/
inductive CopyStage where
  | create
  | copy
  | rewind
deriving DecidableEq

/-- What was being done at a stage. -/
def CopyStage.label : CopyStage → String
  | create => "creating scratch file"
  | copy => "copying archive to scratch file"
  | rewind => "rewinding scratch file"

/-- Why an archive has no listing. -/
inductive ExtractionError where
  /-- Preparing the scratch copy failed. -/
  | io (stage : CopyStage) (reason : String)
  /-- The data are no ZIP archive, or a damaged one. -/
  | invalidZip
  /-- The data are no TAR archive, or a damaged one, or could not be read. -/
  | invalidTar
deriving DecidableEq

/-- The wording of an extraction error. -/
def ExtractionError.message : ExtractionError → String
  | io stage reason => "I/O error while " ++ stage.label ++ ": " ++ reason
  | invalidZip => "Invalid ZIP archive"
  | invalidTar => "Invalid TAR archive"

namespace Archive

/-! ## Scratch copies -/

/-- Copies a stream, piece by piece: the first piece for which there is no room
meets a write failure. -/
def copyPieces (space : ScratchSpace) (failure : Option String) :
    Nat → List (List UInt8) → Except ExtractionError (List UInt8)
  | _, [] =>
    match failure with
    | some reason => .error (.io .copy reason)
    | none => .ok []
  | room, piece :: rest =>
    match space.writeFailure with
    | some reason =>
      if room < piece.length then .error (.io .copy reason)
      else (copyPieces space failure (room - piece.length) rest).map (piece ++ ·)
    | none => (copyPieces space failure room rest).map (piece ++ ·)

/-- The bytes of a scratch copy, read from the start.  A file that fails only then
makes a damaged archive. -/
def scratchCopy (space : ScratchSpace) (s : Stream) : Except ExtractionError (List UInt8) := do
  let bytes ← copyPieces space s.failure space.room s.pieces
  match space.seekFailure with
  | some reason => throw (.io .rewind reason)
  | none => if space.failsLater then throw .invalidZip else return bytes

/-! ## Records -/

/-- The records of a ZIP archive, behind those that are listed already, from what its
reader answers.  The root of an archive has no record. -/
def zipRecords (listed : Array Record) :
    List (Option ZipMember) → Except ExtractionError (List Record)
  | [] => .ok listed.toList
  | none :: _ => .error .invalidZip
  | some m :: rest =>
    match Path.normalize m.name with
    | some path => zipRecords (listed.push (.ofRaw path m.size m.isDirectory)) rest
    | none => zipRecords listed rest

/-- The records of a TAR archive, behind those that are listed already, from what its
reader answers.  Headers that describe other members and the root of an archive have no
record. -/
def tarRecords (listed : Array Record) :
    List (Option TarMember) → Except ExtractionError (List Record)
  | [] => .ok listed.toList
  | none :: _ => .error .invalidTar
  | some m :: rest =>
    if m.type = .extension then tarRecords listed rest
    else
      match Path.normalize (Text.Utf8.decodeLossy m.rawName) with
      | some path =>
        let isDirectory := decide (m.type = .directory)
        let size := if isDirectory then 0 else m.size
        tarRecords (listed.push (.ofRaw path size isDirectory)) rest
      | none => tarRecords listed rest

/-! ## Readers -/

/-- The source of a TAR archive with the given compression. -/
def tarSource : Compression → Stream → Inflow
  | .uncompressed => Inflow.ofStream
  | .gzip => Gzip.source
  | .bzip2 => Bzip2.source

/-- The readers of the formats: of a ZIP archive in a file, and of a TAR archive that
comes in under a compression. -/
structure Readers where
  zip : List UInt8 → Contents ZipMember := Zip.contents
  tar : Compression → Stream → Contents TarMember := fun compression s =>
    Tar.contents (tarSource compression s)

end Archive

/-- What lists archives: the readers, and the room for scratch copies. -/
structure Extractor where
  scratch : ScratchSpace := {}
  readers : Archive.Readers := {}

/-- With nothing but a scratch space, the readers are the usual ones. -/
instance : Coe ScratchSpace Extractor := ⟨fun scratch => { scratch }⟩

namespace Extractor

/-- The listing of a ZIP archive. -/
def listZip (x : Extractor) (s : Stream) : ScratchM (Except ExtractionError (List Record)) :=
  match x.scratch.createFailure with
  | some reason => return .error (.io .create reason)
  | none => withScratchFile do
    return (Archive.scratchCopy x.scratch s).bind fun bytes =>
      Archive.zipRecords #[] (x.readers.zip bytes).answers

/-- The listing of a TAR archive. -/
def listTar (x : Extractor) (compression : Compression) (s : Stream) :
    Except ExtractionError (List Record) :=
  Archive.tarRecords #[] (x.readers.tar compression s).answers

end Extractor

/-- The records of an archive, or why there are none. -/
def tryExtract (x : Extractor) (format : ArchiveFormat) (s : Stream) :
    ScratchM (Except ExtractionError (List Record)) :=
  match format with
  | .zip => x.listZip s
  | .tar compression => return x.listTar compression s

/-- The records of an archive, and none if anything is wrong with it. -/
def extract (x : Extractor) (format : ArchiveFormat) (s : Stream) :
    ScratchM (List Record) := do
  match ← tryExtract x format s with
  | .ok records => return records
  | .error _ => return []

end ContentPreview
