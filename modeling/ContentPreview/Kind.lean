import ContentPreview.Text.Cut

/-!
# Content kinds

What a stored file is, as far as a preview is concerned: the kind is read off
the declared MIME type and decides which preview is made and whether it is
kept.  Where nothing but a file name is known, the MIME type is guessed.

## Main definitions

* `Kind`, `Compression` — the kinds, with the compression of a TAR archive.
* `Kind.ofMime` — the kind that a declared MIME type stands for.
* `Kind.isPersistable` — whether previews of this kind are ever stored.
* `ArchiveFormat`, `Kind.archiveFormat` — the container formats that can be
  listed, and the format of a kind.
* `hasArchiveExtension` — whether a file name is that of an archive.
* `guessMime` — the MIME type that a file name suggests.
-/

namespace ContentPreview

/-- How the bytes of a TAR archive are compressed. -/
inductive Compression where
  | uncompressed
  | gzip
  | bzip2
deriving DecidableEq

/-- The kinds of content that previews tell apart. -/
inductive Kind where
  | plainText
  | html
  | zipArchive
  | tarArchive (compression : Compression)
  | unsupported
deriving DecidableEq

/-- Container formats that can be listed. -/
inductive ArchiveFormat where
  | zip
  | tar (compression : Compression)
deriving DecidableEq

namespace Compression

/-- The name shown for a compression. -/
def label : Compression → String
  | uncompressed => "none"
  | gzip => "gzip"
  | bzip2 => "bzip2"

end Compression

namespace Kind

/-- The MIME types that have a preview, each with its kind. -/
def mimeTable : List (String × Kind) :=
  [("text/plain", plainText),
   ("text/html", html),
   ("application/zip", zipArchive),
   ("application/x-zip-compressed", zipArchive),
   ("application/x-tar", tarArchive .uncompressed),
   ("application/gzip", tarArchive .gzip),
   ("application/x-gzip", tarArchive .gzip),
   ("application/x-gtar", tarArchive .gzip),
   ("application/x-compressed-tar", tarArchive .gzip),
   ("application/x-bzip2", tarArchive .bzip2),
   ("application/x-bzip-compressed-tar", tarArchive .bzip2)]

/-- The part of a MIME type before its parameters, without surrounding blanks
and with ASCII capitals made small. -/
def essence (mime : String) : String :=
  String.ofList (Text.lower (Text.trim (mime.toList.takeWhile (· != ';'))))

/-- The kind that a declared MIME type stands for; parameters and letter case
do not matter. -/
def ofMime (mime : String) : Kind := (mimeTable.lookup (essence mime)).getD unsupported

/-- The container format of a kind, if it is an archive. -/
def archiveFormat : Kind → Option ArchiveFormat
  | zipArchive => some .zip
  | tarArchive c => some (.tar c)
  | plainText | html | unsupported => none

/-- Whether the kind is an archive. -/
def isArchive (kind : Kind) : Bool := kind.archiveFormat.isSome

/-- Whether a preview of this kind may be stored.  HTML is shown in full and
read anew each time; unsupported content has no preview at all. -/
def isPersistable : Kind → Bool
  | html | unsupported => false
  | plainText | zipArchive | tarArchive _ => true

/-- The name shown for a kind. -/
def label : Kind → String
  | plainText => "plain-text"
  | html => "html"
  | zipArchive => "zip-archive"
  | tarArchive _ => "tar-archive"
  | unsupported => "unsupported"

end Kind

namespace ArchiveFormat

/-- The name shown for a container format. -/
def label : ArchiveFormat → String
  | zip => "zip"
  | tar .uncompressed => "tar"
  | tar c => "tar+" ++ c.label

end ArchiveFormat

/-- The extensions, without their dot, that mark a file name as an archive. -/
def archiveExtensions : List String := ["zip", "tar", "gz", "tar.gz", "tar.bz2"]

/-- Whether a file name ends in a dot and an archive extension, regardless of
the case of ASCII letters. -/
def hasArchiveExtension (name : String) : Bool :=
  archiveExtensions.any fun ext => Text.hasSuffix ("." ++ ext) name

/-! ## MIME types of file names

The MIME type to assume is decided by what the name ends in, regardless of the
case of ASCII letters, and the first entry of the table that fits counts.
-/

/-- File name endings and the MIME types they suggest, in order of
precedence. -/
def mimeOfSuffix : List (String × String) :=
  [(".zip", "application/zip"),
   (".tar.gz", "application/gzip"),
   (".tgz", "application/gzip"),
   (".tar.bz2", "application/x-bzip2"),
   (".tbz2", "application/x-bzip2"),
   (".tar", "application/x-tar"),
   (".html", "text/html"),
   (".htm", "text/html"),
   (".txt", "text/plain"),
   (".md", "text/plain"),
   (".csv", "text/plain"),
   (".log", "text/plain"),
   (".json", "text/plain"),
   (".xml", "text/plain"),
   (".toml", "text/plain"),
   (".yaml", "text/plain"),
   (".yml", "text/plain")]

/-- The MIME type of a file about which nothing can be said. -/
def unknownMime : String := "application/octet-stream"

/-- The MIME type that a file name suggests. -/
def guessMime (name : String) : String :=
  match mimeOfSuffix.find? fun (suffix, _) => Text.hasSuffix suffix name with
  | some (_, mime) => mime
  | none => unknownMime

end ContentPreview
