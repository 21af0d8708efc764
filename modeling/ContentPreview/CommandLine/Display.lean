import ContentPreview.Interchange
import ContentPreview.Json.Writer
import ContentPreview.Sweep
import ContentPreview.Text.Numeral

/-!
# What the command line shows

The texts that the commands print: the outline of an archive, the texts of a
preview, the flat listing, and the summary of a sweep; trees and reports also
as JSON.

In an outline every node has a line, indented by two blanks per level.
Directories are marked by a triangle and files show their size.

## Main definitions

* `padRight`, `padLeft`, `shorten`, `rule` — text in columns.
* `outline`, `plainTexts`, `flatListing` — the displays of a preview.
* `summary` — the display of a sweep.
-/

namespace ContentPreview.CommandLine

/-! ## Columns

Text in columns of a fixed width.  A column is as wide as its number of
characters; text that is too wide for its column pushes the rest aside.
-/

/-- The blanks that a text lacks to a width. -/
def filler (width : Nat) (text : String) : String :=
  String.ofList (List.replicate (width - text.length) ' ')

/-- A text at the left of a column. -/
def padRight (width : Nat) (text : String) : String := text ++ filler width text

/-- A text at the right of a column. -/
def padLeft (width : Nat) (text : String) : String := filler width text ++ text

/-- A text that takes at most a positive number of characters; the last one of
a text that was cut is an ellipsis. -/
def shorten (width : Nat) (text : String) : String :=
  if text.length ≤ width then text else String.ofList (text.toList.take (width - 1)) ++ "…"

/-- A line across the page. -/
def rule : String := String.ofList (List.replicate 60 '─')

/-- Lines of text, each with its line break. -/
def lines (texts : List String) : String := String.join (texts.map (· ++ "\n"))

end ContentPreview.CommandLine

namespace ContentPreview

namespace CommandLine

/-! ## Displays -/

/-- The width of the names in an outline. -/
def nameWidth : Nat := 40

/-- The line of a node at a level of an outline. -/
def nodeLine (level : Nat) (v : View) : String :=
  let marker := if v.isDirectory then "▼ " else "  "
  let label := if v.isDirectory then v.name ++ "/" else v.name
  let size := if v.isDirectory then "" else Text.binarySize v.size.toNat
  String.ofList (List.replicate (2 * level) ' ') ++ marker
    ++ padRight nameWidth (shorten nameWidth label) ++ " " ++ padLeft 10 size

mutual

/-- The lines of a tree at a level of an outline. -/
def treeLines (level : Nat) : View → List String
  | v@⟨_, _, _, _, children⟩ => nodeLine level v :: forestLines (level + 1) children

/-- The lines of a forest at a level of an outline. -/
def forestLines (level : Nat) : Forest → List String
  | [] => []
  | (_, v) :: rest => treeLines level v ++ forestLines level rest

end

/-- The outline of an archive under the path of its file. -/
def outline (path : String) (roots : List View) : String :=
  lines (["", rule, " " ++ path ++ " - " ++ Text.binarySize (View.totalSize roots),
    " " ++ Text.decimal (View.totalLeaves roots) ++ " files listed, "
      ++ Text.decimal (View.totalNodes roots) ++ " nodes", rule, ""]
    ++ roots.flatMap (treeLines 0))

/-- The texts of the roots of a preview. -/
def plainTexts (roots : List View) : String := lines (roots.map View.content)

/-- The roots of a preview as JSON. -/
def jsonText (roots : List View) : String :=
  lines [(Json.Value.list (roots.map View.toJson)).indented]

/-- The records of a listing, one a line. -/
def flatListing (records : List Record) : String := lines (records.map Record.line)

/-- A line of a summary. -/
def countLine (label : String) (count : Nat) : String :=
  " " ++ padRight 24 label ++ " " ++ padLeft 8 (Text.decimal count)

/-- The line of a failure. -/
def failureLine (f : SweepFailure) : String := "  " ++ f.bitstream ++ ": " ++ f.error

/-- The summary of a sweep that left the given number of nodes in the store.
Times are those of an instant. -/
def summary (r : SweepReport) (storedNodes : Nat) : String :=
  lines (["", rule, " " ++ Text.decimal r.processed ++ " bitstreams in 0.00s", rule,
    countLine "previews stored" r.generated,
    countLine "nodes stored" storedNodes,
    countLine "already present" r.existing,
    countLine "not stored (html)" r.transient,
    countLine "nothing to preview" r.empty,
    countLine "denied" r.denied,
    countLine "failed" r.failures.length]
    ++ if r.isClean then [] else "" :: r.failures.map failureLine)

/-- The report of a sweep as JSON. -/
def jsonReport (r : SweepReport) : String := lines [r.toJson.indented]

end CommandLine

end ContentPreview
