import ContentPreview.Tree.Stored

/-!
# The nodes of a stored tree

A tree seen as the list of its nodes, in preorder and each with all that is
below it.  Searching a tree for an identity is searching this list.

## Main definitions

* `StoredNode.nodes`, `StoredNode.nodesAmong` — the nodes of a tree and of the
  children of a node.

## Main results

* `length_nodes` — the number of nodes.
* `find?_eq` — the search of a tree, on its list of nodes.
-/

namespace ContentPreview

namespace StoredNode

mutual

/-- The nodes of a tree in preorder, each with all that is below it. -/
def nodes : StoredNode → List StoredNode
  | ⟨id, owner, name, content, isDirectory, size, children⟩ =>
    ⟨id, owner, name, content, isDirectory, size, children⟩ :: nodesAmong children

/-- The nodes of the children of a node. -/
def nodesAmong : List (String × StoredNode) → List StoredNode
  | [] => []
  | (_, node) :: rest => node.nodes ++ nodesAmong rest

end

mutual

theorem length_nodes (node : StoredNode) : node.nodes.length = node.nodeCount :=
  match node with
  | ⟨id, owner, name, content, isDirectory, size, children⟩ => by
    rw [nodes, nodeCount, List.length_cons, length_nodesAmong children, Nat.add_comm]

theorem length_nodesAmong (children : List (String × StoredNode)) :
    (nodesAmong children).length = nodeCountAll children :=
  match children with
  | [] => rfl
  | (_, node) :: rest => by
    rw [nodesAmong, nodeCountAll, List.length_append, length_nodes node, length_nodesAmong rest]

end

/-! ## Search -/

mutual

theorem find?_eq (id : Nat) (node : StoredNode) :
    node.find? id = node.nodes.find? (fun part => part.id == id) :=
  match node with
  | ⟨i, owner, name, content, isDirectory, size, children⟩ => by
    rw [find?, nodes, List.find?_cons]
    by_cases hid : i = id
    · rw [if_pos hid, show (i == id) = true by simpa using hid]
    · rw [if_neg hid, show (i == id) = false by simpa using hid]
      exact findAmong?_eq id children

theorem findAmong?_eq (id : Nat) (children : List (String × StoredNode)) :
    findAmong? id children = (nodesAmong children).find? (fun part => part.id == id) :=
  match children with
  | [] => rfl
  | (key, node) :: rest => by
    rw [findAmong?, nodesAmong, List.find?_append, ← find?_eq id node, ← findAmong?_eq id rest]
    cases node.find? id <;> rfl

end

end StoredNode

end ContentPreview
