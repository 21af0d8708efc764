import ContentPreview.Proofs.Tree.Conversion

/-!
# Numbered trees

What a tree becomes on its way into the store in memory.  Its nodes are numbered
in preorder without gaps, so the stored form depends on the tree, its owner and
the first number only.

The numbering of a forest is given by what the trees in front of it use up, which
is their number of nodes.

## Main definitions

* `View.numbered`, `View.numberedAll` — the stored form of a tree and of the
  children of a node.
* `View.numberedRoots`, `View.numberedEach` — the stored forms of a list of roots, and of
  trees with an owner each.
* `View.toStoredEach` — trees stored one after the other.

## Main results

* `toStored_run` — storing a tree gives its stored form.
* `keeps_numbered` — the stored form keeps the tree for its owner.
* `map_id_numbered` — the identities of a stored form.
* `identities_consecutive` — the identities of any number of trees stored in turn.
-/

namespace ContentPreview

/-! ## The stored form -/

namespace View

mutual

/-- The stored form of a tree whose root has the number `n`. -/
def numbered (owner : BitstreamId) (n : Nat) : View → StoredNode
  | ⟨name, content, size, isDirectory, children⟩ =>
    ⟨n, owner, name, content, isDirectory, Text.decimal size.toNat,
      numberedAll owner (n + 1) children⟩

/-- The stored forms of the children of a node, numbered from `n` on. -/
def numberedAll (owner : BitstreamId) (n : Nat) :
    List (String × View) → List (String × StoredNode)
  | [] => []
  | (key, v) :: rest => (key, v.numbered owner n) :: numberedAll owner (n + v.nodeCount) rest

end

/-- The stored forms of a list of roots, numbered from `n` on. -/
def numberedRoots (owner : BitstreamId) (n : Nat) : List View → List StoredNode
  | [] => []
  | v :: rest => v.numbered owner n :: numberedRoots owner (n + v.nodeCount) rest

/-- The stored forms of trees that have an owner each, numbered from `n` on. -/
def numberedEach (n : Nat) : List (BitstreamId × View) → List StoredNode
  | [] => []
  | (owner, v) :: rest => v.numbered owner n :: numberedEach (n + v.nodeCount) rest

theorem numberedRoots_eq_each (owner : BitstreamId) (n : Nat) (roots : List View) :
    numberedRoots owner n roots = numberedEach n (roots.map fun v => (owner, v)) := by
  induction roots generalizing n with
  | nil => rfl
  | cons v rest ih => rw [numberedRoots, List.map_cons, numberedEach, ih]

theorem isEmpty_numberedRoots (owner : BitstreamId) (n : Nat) (roots : List View) :
    (numberedRoots owner n roots).isEmpty = roots.isEmpty := by
  cases roots <;> rfl

/-! ## Storing a tree in memory -/

mutual

/-- Storing a tree gives its stored form, and uses up as many identities as it
has nodes. -/
theorem toStored_run (owner : BitstreamId) (v : View) (m : Memory) :
    (v.toStored (Store.nextId : StoreM Memory Nat) owner).run.run m =
      (.ok (v.numbered owner m.nextId), m.advanceBy v.nodeCount) :=
  match v with
  | ⟨name, content, size, isDirectory, children⟩ => by
    rw [toStored, run_bind_ok (Memory.run_nextId m),
      run_bind_ok (toStoredAll_run owner children (m.advanceBy 1)),
      Memory.advanceBy_advanceBy, nodeCount]
    rfl

theorem toStoredAll_run (owner : BitstreamId) (children : List (String × View)) (m : Memory) :
    (toStoredAll (Store.nextId : StoreM Memory Nat) owner children).run.run m =
      (.ok (numberedAll owner m.nextId children), m.advanceBy (nodeCountAll children)) :=
  match children with
  | [] => rfl
  | (key, v) :: rest => by
    rw [toStoredAll, run_bind_ok (toStored_run owner v m),
      run_bind_ok (toStoredAll_run owner rest (m.advanceBy v.nodeCount)),
      Memory.advanceBy_advanceBy, nodeCountAll]
    rfl

end

/-- Stores trees one after the other, each for its owner. -/
def toStoredEach (entries : List (BitstreamId × View)) : StoreM Memory (List StoredNode) :=
  entries.mapM fun e => toStored Store.nextId e.1 e.2

theorem toStoredEach_run (entries : List (BitstreamId × View)) (m : Memory) :
    (toStoredEach entries).run.run m =
      (.ok (numberedEach m.nextId entries), m.advanceBy (totalNodes (entries.map Prod.snd))) := by
  induction entries generalizing m with
  | nil => rfl
  | cons entry rest ih =>
      obtain ⟨owner, v⟩ := entry
      unfold toStoredEach at ih ⊢
      rw [List.mapM_cons, run_bind_ok (toStored_run owner v m),
        run_bind_ok (ih (m.advanceBy v.nodeCount)), Memory.advanceBy_advanceBy]
      rfl

/-- The same for a list of roots. -/
theorem mapM_toStored_run (owner : BitstreamId) (roots : List View) (m : Memory) :
    (roots.mapM (toStored (Store.nextId : StoreM Memory Nat) owner)).run.run m =
      (.ok (numberedRoots owner m.nextId roots), m.advanceBy (totalNodes roots)) := by
  have heach := toStoredEach_run (roots.map fun v => (owner, v)) m
  unfold toStoredEach at heach
  rwa [List.mapM_map, List.map_map, ← numberedRoots_eq_each, List.map_id''] at heach
  exact fun _ => rfl

/-! ## What a stored form keeps -/

/-- A store in memory never runs out of identities. -/
theorem memory_supplies (k : Nat) (m : Memory) : Store.Supplies k m := by
  induction k generalizing m with
  | zero => trivial
  | succ k ih => exact ⟨m.nextId, m.advanceBy 1, Memory.run_nextId m, ih _⟩

theorem keeps_numbered (owner : BitstreamId) (n : Nat) (v : View) :
    (v.numbered owner n).Keeps owner v := by
  have hsupplies := memory_supplies (0 + v.nodeCount) { nextId := n }
  obtain ⟨node, t, hrun, -, hkeeps⟩ := toStored_keeps owner v hsupplies
  rw [toStored_run] at hrun
  cases hrun
  exact hkeeps

theorem map_toView_numberedEach (n : Nat) (entries : List (BitstreamId × View)) :
    (numberedEach n entries).map StoredNode.toView = entries.map Prod.snd := by
  induction entries generalizing n with
  | nil => rfl
  | cons entry rest ih =>
      obtain ⟨owner, v⟩ := entry
      rw [numberedEach, List.map_cons, (keeps_numbered owner n v).toView_eq, ih, List.map_cons]

theorem map_toView_numberedRoots (owner : BitstreamId) (n : Nat) (roots : List View) :
    (numberedRoots owner n roots).map StoredNode.toView = roots := by
  rw [numberedRoots_eq_each, map_toView_numberedEach, List.map_map, List.map_id'']
  exact fun _ => rfl

mutual

/-- The identities of a numbered tree are consecutive, in preorder. -/
theorem map_id_numbered (owner : BitstreamId) (n : Nat) (v : View) :
    (v.numbered owner n).nodes.map StoredNode.id = List.range' n v.nodeCount :=
  match v with
  | ⟨name, content, size, isDirectory, children⟩ => by
    rw [numbered, StoredNode.nodes, List.map_cons, map_id_numberedAll owner (n + 1) children,
      nodeCount, Nat.add_comm 1, List.range'_succ]

theorem map_id_numberedAll (owner : BitstreamId) (n : Nat) (children : List (String × View)) :
    (StoredNode.nodesAmong (numberedAll owner n children)).map StoredNode.id =
      List.range' n (nodeCountAll children) :=
  match children with
  | [] => rfl
  | (key, v) :: rest => by
    rw [numberedAll, StoredNode.nodesAmong, List.map_append, map_id_numbered owner n v,
      map_id_numberedAll owner (n + v.nodeCount) rest, List.range'_append_1, nodeCountAll]

end

theorem map_id_numberedEach (n : Nat) (entries : List (BitstreamId × View)) :
    ((numberedEach n entries).flatMap StoredNode.nodes).map StoredNode.id =
      List.range' n (totalNodes (entries.map Prod.snd)) := by
  induction entries generalizing n with
  | nil => rfl
  | cons entry rest ih =>
      obtain ⟨owner, v⟩ := entry
      have htotal : totalNodes ((v :: rest.map Prod.snd)) =
          v.nodeCount + totalNodes (rest.map Prod.snd) := rfl
      rw [numberedEach, List.flatMap_cons, List.map_append, map_id_numbered, ih,
        List.range'_append_1, List.map_cons, htotal]

/-- **Identities are handed out in preorder without gaps.**  Trees are stored one after the
other, each for an owner of its own, in a memory with any next identity.  The stored trees
are these trees, and the identities of their nodes in preorder, tree by tree, are the next
identity and those that follow it, one for each node; the next identity afterwards is the one
behind them, and what the memory holds stays.  As long as these numbers fit a 64-bit word
they are the same as words. -/
theorem identities_consecutive (m : Memory) (entries : List (BitstreamId × View)) :
    let count := totalNodes (entries.map Prod.snd)
    ∃ stored m',
      (toStoredEach entries).run.run m = (.ok stored, m') ∧
        stored.map StoredNode.toView = entries.map Prod.snd ∧ m'.trees = m.trees ∧
        (stored.flatMap StoredNode.nodes).map StoredNode.id = List.range' m.nextId count ∧
        m'.nextId = m.nextId + count ∧
        (m.nextId + count < UInt64.size →
          ((stored.flatMap StoredNode.nodes).map fun node => (UInt64.ofNat node.id).toNat) =
              List.range' m.nextId count ∧
            (UInt64.ofNat m'.nextId).toNat = m.nextId + count) := by
  intro count
  have hids := map_id_numberedEach m.nextId entries
  refine ⟨_, _, toStoredEach_run entries m, map_toView_numberedEach m.nextId entries, rfl,
    hids, rfl, fun hfits => ⟨?_, UInt64.toNat_ofNat_of_lt' hfits⟩⟩
  rw [← hids]
  refine List.map_congr_left fun node hnode => ?_
  have hid := List.mem_map_of_mem (f := StoredNode.id) hnode
  rw [hids, List.mem_range'_1] at hid
  have hlt : node.id < UInt64.size := Nat.lt_trans hid.2 hfits
  exact UInt64.toNat_ofNat_of_lt' hlt

/-- Two trees for two owners take the last identities that leave a next one. -/
theorem identities_consecutive_last :
    let m : Memory := { nextId := 18446744073709551611 }
    let folder : View := ⟨"d", "", 0, true, [("a", .file "a" 1), ("e", .directory "e")]⟩
    let entries := [("b", folder), ("c", .text "n.txt" "note")]
    m.nextId + totalNodes (entries.map Prod.snd) < UInt64.size ∧
      ∃ stored m', (toStoredEach entries).run.run m = (.ok stored, m') ∧
        ((stored.flatMap StoredNode.nodes).map fun node => (UInt64.ofNat node.id).toNat) =
          [18446744073709551611, 18446744073709551612, 18446744073709551613,
            18446744073709551614] ∧
        (UInt64.ofNat m'.nextId).toNat = 18446744073709551615 := by
  intro m folder entries
  have hfits : m.nextId + totalNodes (entries.map Prod.snd) < UInt64.size := by decide
  obtain ⟨stored, m', hrun, -, -, -, -, hwords⟩ := identities_consecutive m entries
  obtain ⟨hids, hnext⟩ := hwords hfits
  exact ⟨hfits, stored, m', hrun, hids, hnext⟩

end View

end ContentPreview
