import ContentPreview.Bitstream
import ContentPreview.FileTree

/-!
# Sources of content

Where the content of a bitstream comes from.  A source answers the same each
time it is asked.

A directory can serve as a source: the identifier of a bitstream is then a
path below the directory.  An identifier that could lead out of it, because
it starts at the root of the file system or steps up, is refused as it
stands; nothing is looked up and nothing simplified.

The components of a path are those of a Unix path: the root in front, if the
path starts with a separator, then the names and the steps back.  Repeated
separators, separators at the end and points are left out, except for a point
that a path starts with.

## Main definitions

* `Source` — what opening a bitstream gives.
* `PathComponent.parse` — the components of a path.
* `pathOf` — the path of an identifier below a directory.
* `Source.ofDirectory` — a directory as a source.
-/

namespace ContentPreview

/-- What opening the content of a bitstream gives; nothing if it cannot be
opened. -/
structure Source where
  content? : Bitstream → Option Stream

namespace Source

/-- The source that knows the streams of some identifiers. -/
def ofStreams (streams : List (BitstreamId × Stream)) : Source := ⟨fun b => streams.lookup b.id⟩

end Source

/-- What a path consists of. -/
inductive PathComponent where
  | root
  /-- A point in front of a path. -/
  | current
  /-- A step back. -/
  | parent
  | name (name : String)
deriving DecidableEq

namespace PathComponent

/-- The component that a step stands for, wherever it is in a path. -/
def ofStep? (step : String) : Option PathComponent :=
  if step = "" ∨ step = "." then none
  else if step = ".." then some parent
  else some (name step)

/-- What a path has in front of its names. -/
def front (path : String) : List PathComponent :=
  if path.toList.head? = some '/' then [root]
  else if (FileTree.steps path).head? = some "." then [current]
  else []

/-- The components of a path in their order. -/
def parse (path : String) : List PathComponent :=
  front path ++ (FileTree.steps path).filterMap ofStep?

/-- Whether a path with this component could lead out of the directory that it
is taken below. -/
def leadsOut : PathComponent → Bool
  | root | parent => true
  | current | name _ => false

end PathComponent

/-- Whether an identifier could lead out of the directory that it is taken
below. -/
def escapes (id : BitstreamId) : Bool := (PathComponent.parse id).any PathComponent.leadsOut

/-- A path with another one put behind it. -/
def joinPath (root path : String) : String :=
  if root.isEmpty ∨ root.toList.getLast? = some '/' then root ++ path else root ++ "/" ++ path

/-- The wording of the refusal of an identifier. -/
def escapeMessage (id : BitstreamId) : String :=
  "bitstream id '" ++ id ++ "' is not below the source root"

/-- The path of an identifier below a directory, or the refusal. -/
def pathOf (root : String) (id : BitstreamId) : Except String String :=
  if escapes id then .error (escapeMessage id) else .ok (joinPath root id)

/-- A directory as a source. -/
def Source.ofDirectory (tree : FileTree) : Source :=
  ⟨fun b => if escapes b.id then none else tree.content? b.id⟩

end ContentPreview
