import ContentPreview.Proofs.Tree.Bounding
import ContentPreview.Proofs.Tree.Nodes
import ContentPreview.Proofs.Tree.Numbering

/-!
# Well-formed stored trees

What a store promises about each of its nodes: children stand under their names
and below directories only, a size is written as a decimal number of 64 bits, and
a directory has no content and the size `0`.

A node of a numbered tree is the numbered form of a part of that tree, and the
parts of a canonical tree are canonical.  So the promise is about one node at a
time, and the only thing that is counted over the whole tree is its leaves: in a
canonical tree these are the nodes that are no directories.

## Main definitions

* `StoredNode.IsWellFormed` — the promise about a single node.

## Main results

* `Canonical.isWellFormed_of_mem` — every node of a numbered canonical tree keeps it.
* `countP_nodesAmong` — the nodes that are no directories, counted.
-/

namespace ContentPreview

structure StoredNode.IsWellFormed (node : StoredNode) : Prop where
  keys : ∀ entry ∈ node.children, entry.1 = entry.2.name
  parent : node.children ≠ [] → node.isDirectory = true
  size : ∃ size : UInt64, node.size = Text.decimal size.toNat
  directoryContent : node.isDirectory = true → node.content = ""
  directorySize : node.isDirectory = true → node.size = "0"

namespace StoredNode

theorem nodesAmong_eq (children : List (String × StoredNode)) :
    nodesAmong children = (children.map Prod.snd).flatMap nodes := by
  induction children with
  | nil => rfl
  | cons entry rest ih =>
      obtain ⟨key, node⟩ := entry
      rw [nodesAmong, ih, List.map_cons, List.flatMap_cons]

end StoredNode

namespace View

variable {owner : BitstreamId} {n : Nat}

theorem name_numbered (owner : BitstreamId) (n : Nat) (v : View) :
    (v.numbered owner n).name = v.name := by
  obtain ⟨name, content, size, isDirectory, children⟩ := v
  rfl

/-! ## Roots as children -/

/-- A list of roots is numbered like the children of a node. -/
theorem numberedRoots_eq (owner : BitstreamId) (n : Nat) (roots : List View) :
    numberedRoots owner n roots =
      (numberedAll owner n (Forest.ofRoots roots)).map Prod.snd := by
  induction roots generalizing n with
  | nil => rfl
  | cons v rest ih =>
      rw [numberedRoots, ih]
      rfl

theorem flatMap_nodes_numberedRoots (owner : BitstreamId) (n : Nat) (roots : List View) :
    (numberedRoots owner n roots).flatMap StoredNode.nodes =
      StoredNode.nodesAmong (numberedAll owner n (Forest.ofRoots roots)) := by
  rw [StoredNode.nodesAmong_eq, numberedRoots_eq]

theorem map_name_numberedRoots (owner : BitstreamId) (n : Nat) (roots : List View) :
    (numberedRoots owner n roots).map StoredNode.name = roots.map View.name := by
  induction roots generalizing n with
  | nil => rfl
  | cons v rest ih => rw [numberedRoots, List.map_cons, List.map_cons, name_numbered, ih]

/-! ## One node -/

theorem mem_numberedAll {children : Forest} {entry : String × StoredNode}
    (h : entry ∈ numberedAll owner n children) :
    ∃ v k, (entry.1, v) ∈ children ∧ entry.2 = v.numbered owner k := by
  induction children generalizing n with
  | nil => cases h
  | cons child rest ih =>
      obtain ⟨key, v⟩ := child
      rw [numberedAll] at h
      rcases List.mem_cons.1 h with rfl | hrest
      · exact ⟨v, n, List.mem_cons_self, rfl⟩
      · obtain ⟨w, k, hw, heq⟩ := ih hrest
        exact ⟨w, k, List.mem_cons_of_mem _ hw, heq⟩

theorem Canonical.isWellFormed {v : View} (h : v.Canonical) (owner : BitstreamId) (n : Nat) :
    (v.numbered owner n).IsWellFormed ∧ (v.numbered owner n).content = "" := by
  cases h with
  | file name size hname =>
      exact ⟨⟨nofun, nofun, ⟨size, rfl⟩, nofun, nofun⟩, rfl⟩
  | directory name children hname hnodup hkeys hchildren =>
      have hzero : Text.decimal (0 : UInt64).toNat = "0" := by decide
      refine ⟨⟨?_, fun _ => rfl, ⟨0, rfl⟩, fun _ => rfl, fun _ => hzero⟩, rfl⟩
      intro entry hentry
      obtain ⟨v, k, hv, heq⟩ := mem_numberedAll (n := n + 1) hentry
      rw [heq, name_numbered]
      exact hkeys _ hv

theorem isWellFormed_text (name content : String) (owner : BitstreamId) (n : Nat) :
    ((text name content).numbered owner n).IsWellFormed :=
  ⟨nofun, nofun, ⟨_, rfl⟩, nofun, nofun⟩

/-! ## Every node -/

mutual

/-- A node of a numbered canonical tree is a numbered canonical tree. -/
theorem Canonical.of_mem_nodes {v : View} (hv : v.Canonical) {n : Nat} {node : StoredNode}
    (h : node ∈ (v.numbered owner n).nodes) :
    ∃ part k, Canonical part ∧ node = part.numbered owner k :=
  match v with
  | ⟨name, content, size, isDirectory, children⟩ => by
    rw [numbered, StoredNode.nodes] at h
    rcases List.mem_cons.1 h with rfl | hbelow
    · exact ⟨_, n, hv, rfl⟩
    · exact of_mem_nodesAmong hv.promoted.2.nodes hbelow

theorem of_mem_nodesAmong {children : List (String × View)}
    (hchildren : ∀ e ∈ children, e.2.Canonical) {n : Nat} {node : StoredNode}
    (h : node ∈ StoredNode.nodesAmong (numberedAll owner n children)) :
    ∃ part k, Canonical part ∧ node = part.numbered owner k :=
  match children with
  | [] => nomatch h
  | (key, v) :: rest => by
    rw [numberedAll, StoredNode.nodesAmong] at h
    rcases List.mem_append.1 h with hfirst | hrest
    · exact (hchildren _ List.mem_cons_self).of_mem_nodes hfirst
    · exact of_mem_nodesAmong (fun e he => hchildren e (List.mem_cons_of_mem _ he)) hrest

end

mutual

theorem Canonical.countP_nodes {v : View} (hv : v.Canonical) (owner : BitstreamId) (n : Nat) :
    (v.numbered owner n).nodes.countP (!·.isDirectory) = v.leafCount :=
  match v with
  | ⟨name, content, size, true, children⟩ => by
    rw [numbered, StoredNode.nodes, List.countP_cons_of_neg (by simp),
      countP_nodesAmong hv.promoted.2.nodes, leafCount, if_pos rfl]
  | ⟨name, content, size, false, children⟩ => by
    cases hv
    rfl

theorem countP_nodesAmong {children : List (String × View)}
    (hchildren : ∀ e ∈ children, e.2.Canonical) (owner : BitstreamId) (n : Nat) :
    (StoredNode.nodesAmong (numberedAll owner n children)).countP (!·.isDirectory) =
      leafCountAll children :=
  match children with
  | [] => rfl
  | (key, v) :: rest => by
    rw [numberedAll, StoredNode.nodesAmong, List.countP_append,
      (hchildren _ List.mem_cons_self).countP_nodes,
      countP_nodesAmong fun e he => hchildren e (List.mem_cons_of_mem _ he), leafCountAll]

end

end View

end ContentPreview
