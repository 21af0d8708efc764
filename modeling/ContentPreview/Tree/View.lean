/-!
# View trees

The tree that a preview shows.  A node is a file or a directory; its children
are kept under keys, in the order in which the keys first appeared.

The keys of a node are those of a finite map, so they are meant to be
distinct; a key normally is the name of the child below it.  Neither is
forced by the type, because trees also arrive from outside, where a key and
the name below it may differ; `View.isWellFormed` says when they agree.

Two trees are the same preview if they agree as nested maps, whatever the
order of the children: that is `View.same`.

## Main definitions

* `View`, and the constructors `View.file`, `View.directory`, `View.text`.
* `View.nodeCount`, `View.leafCount`, `View.sizeSum` — sizes of a tree.
* `View.isWellFormed` — files have no children, keys are names.
* `View.same` — equality up to the order of children.
-/

namespace ContentPreview

/-- A node of a preview tree. -/
structure View where
  name : String
  /-- The text shown for the node; empty for all but text previews. -/
  content : String
  size : UInt64
  isDirectory : Bool
  /-- The children under their keys, in order of first appearance. -/
  children : List (String × View)

/-- Nodes under their keys, in order: the children of one node, or the roots
of a preview. -/
abbrev Forest := List (String × View)

namespace View

/-- A file of the given size. -/
def file (name : String) (size : UInt64) : View := ⟨name, "", size, false, []⟩

/-- A directory without children. -/
def directory (name : String) : View := ⟨name, "", 0, true, []⟩

/-- A file that shows a text; its size is the number of bytes of the text. -/
def text (name content : String) : View :=
  ⟨name, content, UInt64.ofNat content.utf8ByteSize, false, []⟩

/-- The child under a key. -/
def child? (v : View) (key : String) : Option View := v.children.lookup key

mutual

/-- The number of nodes of a tree. -/
def nodeCount : View → Nat
  | ⟨_, _, _, _, children⟩ => 1 + nodeCountAll children

/-- The number of nodes of a forest. -/
def nodeCountAll : List (String × View) → Nat
  | [] => 0
  | (_, v) :: rest => v.nodeCount + nodeCountAll rest

end

mutual

/-- The number of leaves of a tree: every file counts, and a directory counts
through its children only. -/
def leafCount : View → Nat
  | ⟨_, _, _, isDirectory, children⟩ => if isDirectory then leafCountAll children else 1

/-- The number of leaves of a forest. -/
def leafCountAll : List (String × View) → Nat
  | [] => 0
  | (_, v) :: rest => v.leafCount + leafCountAll rest

end

mutual

/-- The sum of the sizes of a tree. -/
def sizeSum : View → Nat
  | ⟨_, _, size, _, children⟩ => size.toNat + sizeSumAll children

/-- The sum of the sizes of a forest. -/
def sizeSumAll : List (String × View) → Nat
  | [] => 0
  | (_, v) :: rest => v.sizeSum + sizeSumAll rest

end

mutual

/-- Whether only directories have children and every key is the name below
it. -/
def isWellFormed : View → Bool
  | ⟨_, _, _, isDirectory, children⟩ =>
    (isDirectory || children.isEmpty) && areWellFormed children

/-- Whether every key is the name of a well-formed tree. -/
def areWellFormed : List (String × View) → Bool
  | [] => true
  | (key, v) :: rest => key == v.name && v.isWellFormed && areWellFormed rest

end

mutual

/-- Whether two trees agree, the order of children aside. -/
def same : View → View → Bool
  | ⟨name, content, size, isDirectory, children⟩, w =>
    name == w.name && content == w.content && size == w.size && isDirectory == w.isDirectory
      && children.length == w.children.length && allIn children w.children

/-- Whether every tree is the same as the one under its key in another
forest. -/
def allIn : List (String × View) → List (String × View) → Bool
  | [], _ => true
  | (key, v) :: rest, other =>
    (match other.lookup key with
      | some w => v.same w
      | none => false) && allIn rest other

end

/-- Whether two lists of roots agree one by one. -/
def sameRoots (vs ws : List View) : Bool :=
  vs.length == ws.length && (vs.zip ws).all fun (v, w) => v.same w

/-- The number of nodes of a list of roots. -/
def totalNodes (roots : List View) : Nat := roots.foldr (fun v n => v.nodeCount + n) 0

/-- The number of leaves of a list of roots. -/
def totalLeaves (roots : List View) : Nat := roots.foldr (fun v n => v.leafCount + n) 0

/-- The sum of the sizes of a list of roots. -/
def totalSize (roots : List View) : Nat := roots.foldr (fun v n => v.sizeSum + n) 0

end View

end ContentPreview
