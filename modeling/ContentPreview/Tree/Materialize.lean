import ContentPreview.Keyed
import ContentPreview.Record
import ContentPreview.Tree.View

/-!
# From a flat listing to a tree

Records are placed one after the other.  A record's path is followed
component by component; directories on the way are made where they are
missing, and a file met on the way becomes a directory.  At the last
component a directory always wins over a file, and of two files the later one
sets the size.  A record without components leaves no trace.

New names go to the end of their level and nothing is ever moved, so siblings
stand in the order in which the listing first mentions them.

## Main definitions

* `Forest.place` — a forest with one record added.
* `materialize` — the roots of the tree of a listing.
* `materializeLines` — the same for a listing given as lines of text.
-/

namespace ContentPreview

/-- The node as a directory.  A file loses its size and content. -/
def View.promoted (v : View) : View :=
  if v.isDirectory then v else { v with isDirectory := true, size := 0, content := "" }

namespace Forest

/-- The node of a record at its last component, given the node that stands
there. -/
def settle (name : String) (r : Record) : Option View → View
  | some v =>
    if r.isDirectory then v.promoted
    else if v.isDirectory then v
    else { v with size := r.size }
  | none => if r.isDirectory then View.directory name else View.file name r.size

/-- The forest with a record placed at the given components. -/
def place (r : Record) : List String → Forest → Forest
  | [], level => level
  | [last], level => Keyed.alter last (settle last r) level
  | parent :: next :: rest, level =>
    Keyed.alter parent
      (fun found =>
        let node := (found.getD (View.directory parent)).promoted
        { node with children := place r (next :: rest) node.children })
      level

/-- The forest with a record placed at the components of its path. -/
def insert (level : Forest) (r : Record) : Forest := place r (Path.components r.path) level

end Forest

/-- The roots of the tree of a listing, under their names. -/
def materializeForest (records : List Record) : Forest := records.foldl Forest.insert []

/-- The roots of the tree of a listing. -/
def materialize (records : List Record) : List View := (materializeForest records).map Prod.snd

/-- The roots of the tree of a listing given as lines, or the error of the
first bad line. -/
def materializeLines (lines : List String) : Except RecordError (List View) :=
  (Record.parseAll lines).map materialize

end ContentPreview
