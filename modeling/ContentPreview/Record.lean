import ContentPreview.Text.Cut
import ContentPreview.Text.Numeral

/-!
# Listing records

One entry of a flat archive listing, its path, and its form as a line of text.

A line is `path|size` for a file and `path/|size` for a directory.  Paths may
contain the field separator, since the size is what follows the last one.
Reading is more generous than writing: blanks around the size, a plus sign
and leading zeros are accepted, and a directory's size is ignored.

## Main definitions

* `Path.components` — the components that a path names, in order.
* `Path.normalize` — a member name without the leading separators and `./`
  steps that archive writers put in front, or nothing when the name denotes
  the root of the archive.
* `Record`, with the constructors `file`, `directory`, `ofRaw` and
  `tooManyFiles`.
* `Record.line` — the line of a record.
* `Record.parse` — the record of a line, or the first thing wrong with it.
-/

namespace ContentPreview.Path

/-! ## Paths inside an archive

A path is a text in which `/` separates components.  Empty components and
the component `.` name nothing, so two spellings that differ only by them
denote the same place.
-/

/-- The character between two components. -/
def separator : Char := '/'

/-- Whether a component names a place of its own. -/
def isProper (component : List Char) : Bool := component ≠ [] && component ≠ ['.']

/-- The components of a path without the empty and `.` ones. -/
def parts (path : List Char) : List (List Char) :=
  (path.splitOn separator).filter isProper

/-- The components that a path names. -/
def components (path : String) : List String := (parts path.toList).map String.ofList

/-- Drops separators and `./` steps at the front for as long as there are
any. -/
def dropRootSteps : List Char → List Char
  | '/' :: rest => dropRootSteps rest
  | '.' :: '/' :: rest => dropRootSteps rest
  | path => path

/-- A member name relative to the root of its archive, and nothing when it is
the root itself. -/
def normalize (raw : String) : Option String :=
  match dropRootSteps raw.toList with
  | [] => none
  | ['.'] => none
  | path => some (String.ofList path)

end ContentPreview.Path

namespace ContentPreview

/-! ## Records and their lines -/

/-- One entry of a flat listing. -/
structure Record where
  path : String
  size : UInt64
  isDirectory : Bool
deriving DecidableEq

/-- What can be wrong with a listing line. -/
inductive RecordError where
  /-- There is no field separator. -/
  | missingSeparator (line : String)
  /-- The text after the last separator is no size. -/
  | invalidSize (size : String)
  /-- The path consists of separators alone. -/
  | emptyPath
deriving DecidableEq

/-- The wording of a line error. -/
def RecordError.message : RecordError → String
  | missingSeparator line => "Missing size separator in listing line: " ++ line
  | invalidSize size => "Invalid size '" ++ size ++ "' in listing line"
  | emptyPath => "Empty path in listing line"

namespace Record

/-- The character between path and size. -/
def fieldSeparator : Char := '|'

/-- The path that stands for files left out of a listing. -/
def tooManyFilesPath : String := "...too many files..."

/-- The record of a file. -/
def file (path : String) (size : UInt64) : Record := ⟨path, size, false⟩

/-- The record of a directory: its path has no trailing separator, and it has
no size. -/
def directory (path : String) : Record :=
  ⟨String.ofList (Text.dropTrailing Path.separator path.toList), 0, true⟩

/-- Whether a path ends in a separator. -/
def endsInSeparator (path : String) : Bool := path.toList.getLast? == some Path.separator

/-- The record of a raw path, which is a directory if it is declared one or
ends in a separator. -/
def ofRaw (path : String) (size : UInt64) (isDirectory : Bool) : Record :=
  if isDirectory || endsInSeparator path then directory path else file path size

/-- The record that ends a listing from which files were left out. -/
def tooManyFiles : Record := file tooManyFilesPath 0

/-- Whether a record stands for files left out. -/
def isSentinel (r : Record) : Bool := !r.isDirectory && r.path == tooManyFilesPath

/-- The line of a record. -/
def line (r : Record) : String :=
  let shown := if r.isDirectory then r.path.push Path.separator else r.path
  shown.push fieldSeparator ++ Text.decimal r.size.toNat

/-- The record that a line stands for. -/
def parse (line : String) : Except RecordError Record :=
  match Text.splitAtLast fieldSeparator line.toList with
  | none => .error (.missingSeparator line)
  | some (path, sizeText) =>
    match Text.readUInt64 (Text.trim sizeText) with
    | none => .error (.invalidSize (String.ofList sizeText))
    | some size =>
      if Text.dropTrailing Path.separator path = [] then .error .emptyPath
      else .ok (ofRaw (String.ofList path) size false)

/-- The records of a list of lines, or the error of the first bad line. -/
def parseAll (lines : List String) : Except RecordError (List Record) := lines.mapM parse

end Record

end ContentPreview
