import ContentPreview.Bitstream
import ContentPreview.Text.Cut
import ContentPreview.Text.Numeral
import ContentPreview.Tree.View

/-!
# Stored trees

The form in which a preview is kept.  A stored node has an identity and names
the bitstream that owns it; its size is a column of text.

A tree is numbered on its way into a store: every node takes the next
identity before its children do, and the children take theirs in order.  On
the way back the size is read from its text, and a text that is no size counts
as zero.

## Main definitions

* `StoredNode` — a stored node.
* `StoredNode.ids` — the identities of a tree, last child first.
* `StoredNode.find?` — the first node with an identity, in preorder.
* `View.toStored` — the stored form of a view, numbered by any supply of
  identities.
* `StoredNode.toView` — the view of a stored node.
-/

namespace ContentPreview

/-- A node of a stored preview. -/
structure StoredNode where
  id : Nat
  /-- The bitstream that the node belongs to. -/
  bitstream : BitstreamId
  name : String
  content : String
  isDirectory : Bool
  /-- The size as a column of text. -/
  size : String
  /-- The children under their keys, in order. -/
  children : List (String × StoredNode)

namespace StoredNode

mutual

/-- The number of nodes of a tree. -/
def nodeCount : StoredNode → Nat
  | ⟨_, _, _, _, _, _, children⟩ => 1 + nodeCountAll children

/-- The number of nodes of a forest. -/
def nodeCountAll : List (String × StoredNode) → Nat
  | [] => 0
  | (_, n) :: rest => n.nodeCount + nodeCountAll rest

end

/-- The number of nodes of a list of roots. -/
def totalNodes : List StoredNode → Nat
  | [] => 0
  | n :: rest => n.nodeCount + totalNodes rest

/-! ## The walk over identities -/

/-- The trees below a node, in order. -/
def subtrees (node : StoredNode) : List StoredNode := node.children.map Prod.snd

theorem nodeCountAll_eq (children : List (String × StoredNode)) :
    nodeCountAll children = totalNodes (children.map Prod.snd) := by
  induction children with
  | nil => rfl
  | cons entry rest ih => simp [nodeCountAll, totalNodes, ih]

theorem nodeCount_eq (node : StoredNode) : node.nodeCount = 1 + totalNodes node.subtrees := by
  obtain ⟨_, _, _, _, _, _, children⟩ := node
  rw [nodeCount, nodeCountAll_eq, subtrees]

theorem totalNodes_append (xs ys : List StoredNode) :
    totalNodes (xs ++ ys) = totalNodes xs + totalNodes ys := by
  induction xs with
  | nil => simp [totalNodes]
  | cons x xs ih => simp [totalNodes, ih, Nat.add_assoc]

theorem totalNodes_reverse (roots : List StoredNode) :
    totalNodes roots.reverse = totalNodes roots := by
  induction roots with
  | nil => rfl
  | cons root rest ih => simp [totalNodes, totalNodes_append, ih, Nat.add_comm]

/-- Takes trees off a stack, notes each root and puts its children on top,
the last child uppermost. -/
def walk : List StoredNode → List Nat
  | [] => []
  | node :: stack => node.id :: walk (node.subtrees.reverse ++ stack)
termination_by stack => totalNodes stack
decreasing_by
  rw [totalNodes_append, totalNodes_reverse]
  have := nodeCount_eq node
  simp only [totalNodes]
  omega

/-- The identities of a tree: a node before its descendants, the subtree of
the last child first. -/
def ids (node : StoredNode) : List Nat := walk [node]

/-! ## Search -/

mutual

/-- The first node with an identity, a node before its children. -/
def find? (id : Nat) : StoredNode → Option StoredNode
  | ⟨i, b, n, c, d, s, children⟩ =>
    if i = id then some ⟨i, b, n, c, d, s, children⟩ else findAmong? id children

/-- The first node with an identity in a forest. -/
def findAmong? (id : Nat) : List (String × StoredNode) → Option StoredNode
  | [] => none
  | (_, node) :: rest =>
    match node.find? id with
    | some found => some found
    | none => findAmong? id rest

end

/-! ## Into a store and back -/

/-- The size that a text column holds, or zero if it holds none. -/
def sizeOfText (text : String) : UInt64 := (Text.readUInt64 (Text.trim text.toList)).getD 0

mutual

/-- The view of a stored node. -/
def toView : StoredNode → View
  | ⟨_, _, name, content, isDirectory, size, children⟩ =>
    ⟨name, content, sizeOfText size, isDirectory, toViews children⟩

/-- The views of the children of a stored node. -/
def toViews : List (String × StoredNode) → List (String × View)
  | [] => []
  | (key, node) :: rest => (key, node.toView) :: toViews rest

end

end StoredNode

namespace View

variable {m : Type → Type} [Monad m]

mutual

/-- The stored form of a tree owned by `owner`.  The node takes an identity
from the supply before its children do. -/
def toStored (nextId : m Nat) (owner : BitstreamId) : View → m StoredNode
  | ⟨name, content, size, isDirectory, children⟩ => do
    let id ← nextId
    let stored ← toStoredAll nextId owner children
    return ⟨id, owner, name, content, isDirectory, Text.decimal size.toNat, stored⟩

/-- The stored forms of the children of a node, in order. -/
def toStoredAll (nextId : m Nat) (owner : BitstreamId) :
    List (String × View) → m (List (String × StoredNode))
  | [] => return []
  | (key, v) :: rest => do
    let node ← v.toStored nextId owner
    let nodes ← toStoredAll nextId owner rest
    return (key, node) :: nodes

end

end View

end ContentPreview
