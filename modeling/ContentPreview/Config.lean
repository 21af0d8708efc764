import ContentPreview.Record
import ContentPreview.Text.Cut

/-!
# Bounds and settings

A preview shows at most so many characters of a text and at most so many
files of an archive.  What goes over a bound is cut, and the cut is made
visible: a text ends in a marker, a listing in a record of its own.

The settings of a preview service are its bounds, who sees a preview at all,
and when one is made.  Each has a default, and some values are refused.

## Main definitions

* `truncateText` — a text of at most the given number of characters.
* `Limiting` — what is counted while a listing is limited.
* `limitLeaves` — a listing with at most the given number of files, in which
  directories do not count.
* `Bounds`, `Config` — the two bounds together, and all settings.
* `Config.fault?` — the first thing wrong with a configuration; the bound on
  text is looked at before the bound on files.
-/

namespace ContentPreview

/-! ## Bounds -/

/-- What a truncated text ends in. -/
def truncationMarker : String := " . . ."

/-- The text itself if it has at most `max` characters, otherwise its
beginning followed by the marker, `max` characters in all.  A bound shorter
than the marker leaves the marker alone. -/
def truncateText (max : Nat) (text : String) : String :=
  if text.length ≤ max then text
  else Text.beginning (max - truncationMarker.length) text ++ truncationMarker

/-- A listing on the way to being limited. -/
structure Limiting where
  /-- The records that are kept. -/
  emitted : Array Record := #[]
  /-- The number of files among them. -/
  leaves : Nat := 0
  /-- The number of files that are left out. -/
  dropped : Nat := 0

namespace Limiting

/-- Takes one more record: directories are always kept, files while there is
room. -/
def add (max : Nat) (l : Limiting) (r : Record) : Limiting :=
  if r.isDirectory then { l with emitted := l.emitted.push r }
  else if l.leaves < max then { l with emitted := l.emitted.push r, leaves := l.leaves + 1 }
  else { l with dropped := l.dropped + 1 }

/-- The records that are kept, with a last one that says so if any file was
left out. -/
def listing (l : Limiting) : List Record :=
  (if 0 < l.dropped then l.emitted.push Record.tooManyFiles else l.emitted).toList

end Limiting

/-- The listing cut to `max` files. -/
def limitLeaves (max : Nat) (records : List Record) : List Record :=
  (records.foldl (Limiting.add max) {}).listing

/-- The bounds of a preview. -/
structure Bounds where
  /-- The number of files listed one by one. -/
  maxLeafCount : Nat := 1000
  /-- The number of characters of a text preview. -/
  maxContentLength : Nat := 2000
deriving DecidableEq

/-! ## Settings -/

/-- The settings of a preview service. -/
structure Config extends Bounds where
  /-- The master switch: when off, nobody sees a preview. -/
  previewEnabled : Bool := true
  /-- Whether a missing preview is generated when a page asks for it. -/
  generateOnPageLoad : Bool := false
deriving DecidableEq

/-- What can be wrong with a configuration. -/
inductive ConfigFault where
  /-- A truncated text would hold nothing but the marker. -/
  | contentLengthTooSmall
  /-- No file could ever be listed. -/
  | noLeaves
deriving DecidableEq

/-- The wording of a configuration fault. -/
def ConfigFault.message : ConfigFault → String
  | contentLengthTooSmall =>
    "max_content_length must exceed the truncation marker length ("
      ++ Text.decimal truncationMarker.length ++ ")"
  | noLeaves => "max_leaf_count must be at least 1"

namespace Config

/-- The first thing wrong with a configuration. -/
def fault? (config : Config) : Option ConfigFault :=
  if config.maxContentLength ≤ truncationMarker.length then some .contentLengthTooSmall
  else if config.maxLeafCount = 0 then some .noLeaves
  else none

/-- The configuration itself, unless something is wrong with it. -/
def checked (config : Config) : Except ConfigFault Config :=
  match config.fault? with
  | some fault => .error fault
  | none => .ok config

end Config

end ContentPreview
