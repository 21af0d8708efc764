import ContentPreview.Proofs.Store
import ContentPreview.Proofs.Text.Numeral
import ContentPreview.Proofs.Tree.Nodes

/-!
# Into any store and back

Storing a tree asks the store for one identity a node, and for nothing else.  So
it succeeds over every store that can hand out that many, and what it gives does
not depend on the identities: the view of the stored tree is the tree, and each
node of it belongs to the bitstream that it was stored for.

A store may fail at any call, and the state after one call decides about the
next.  `Store.Supplies` therefore counts the calls that succeed from a state on;
the induction carries along those that the tree leaves over.

## Main definitions

* `Store.Supplies` — a number of identities can be had from a state.
* `StoredNode.Keeps` — a stored tree keeps a tree for its owner.

## Main results

* `toStored_lossless` — a tree that was stored is read back as it was.
* `toStored_endsIn` — a conversion that fails leaves no less than what its calls leave.
-/

namespace ContentPreview

/-- The next `k` calls for an identity succeed. -/
def Store.Supplies {σ : Type} [Store σ] : Nat → σ → Prop
  | 0, _ => True
  | k + 1, s => ∃ id t, (nextId : StoreM σ Nat).run.run s = (.ok id, t) ∧ Supplies k t

namespace StoredNode

theorem sizeOfText_decimal (size : UInt64) : sizeOfText (Text.decimal size.toNat) = size := by
  unfold sizeOfText
  rw [Text.readUInt64_trim_decimal]
  rfl

/-- A stored tree keeps a tree for its owner: nothing of the view is lost, and
every node belongs to the owner. -/
structure Keeps (node : StoredNode) (owner : BitstreamId) (v : View) : Prop where
  toView_eq : node.toView = v
  owned : ∀ part ∈ node.nodes, part.bitstream = owner
  count_eq : node.nodeCount = v.nodeCount

/-- The same for the children of a node. -/
structure KeepsAll (children : List (String × StoredNode)) (owner : BitstreamId)
    (views : List (String × View)) : Prop where
  toViews_eq : toViews children = views
  owned : ∀ part ∈ nodesAmong children, part.bitstream = owner
  count_eq : nodeCountAll children = View.nodeCountAll views

theorem KeepsAll.parent {owner : BitstreamId} {children : List (String × StoredNode)}
    {views : List (String × View)} (h : KeepsAll children owner views) (id : Nat)
    (name content : String) (size : UInt64) (isDirectory : Bool) :
    Keeps ⟨id, owner, name, content, isDirectory, Text.decimal size.toNat, children⟩ owner
      ⟨name, content, size, isDirectory, views⟩ where
  toView_eq := by rw [toView, sizeOfText_decimal, h.toViews_eq]
  owned := by
    intro part hpart
    rw [nodes, List.mem_cons] at hpart
    rcases hpart with rfl | hbelow
    · rfl
    · exact h.owned part hbelow
  count_eq := by rw [nodeCount, View.nodeCount, h.count_eq]

theorem Keeps.cons {owner : BitstreamId} {node : StoredNode} {v : View}
    {children : List (String × StoredNode)} {views : List (String × View)}
    (hnode : Keeps node owner v) (hrest : KeepsAll children owner views) (key : String) :
    KeepsAll ((key, node) :: children) owner ((key, v) :: views) where
  toViews_eq := by rw [toViews, hnode.toView_eq, hrest.toViews_eq]
  owned := by
    intro part hpart
    rw [nodesAmong, List.mem_append] at hpart
    rcases hpart with hhere | hthere
    · exact hnode.owned part hhere
    · exact hrest.owned part hthere
  count_eq := by rw [nodeCountAll, View.nodeCountAll, hnode.count_eq, hrest.count_eq]

end StoredNode

namespace View

open Store StoredNode

section

variable {σ : Type} [Store σ]

mutual

/-- A store that supplies identities for a tree converts it, and keeps supplying the `k`
that are left for what comes after it. -/
theorem toStored_keeps (owner : BitstreamId) (v : View) {k : Nat} {s : σ}
    (h : Supplies (k + v.nodeCount) s) :
    ∃ node t, (v.toStored (nextId : StoreM σ Nat) owner).run.run s = (.ok node, t) ∧
      Supplies k t ∧ node.Keeps owner v :=
  match v with
  | ⟨name, content, size, isDirectory, children⟩ => by
    rw [nodeCount, Nat.add_comm 1, ← Nat.add_assoc] at h
    obtain ⟨id, t, hid, hleft⟩ := h
    obtain ⟨stored, u, hstored, hsupplies, hkeeps⟩ := toStoredAll_keeps owner children hleft
    refine ⟨_, u, ?_, hsupplies, hkeeps.parent id name content size isDirectory⟩
    rw [toStored, run_bind_ok hid, run_bind_ok hstored]
    rfl

theorem toStoredAll_keeps (owner : BitstreamId) (children : List (String × View)) {k : Nat}
    {s : σ} (h : Supplies (k + nodeCountAll children) s) :
    ∃ stored t, (toStoredAll (nextId : StoreM σ Nat) owner children).run.run s = (.ok stored, t) ∧
      Supplies k t ∧ KeepsAll stored owner children :=
  match children with
  | [] => ⟨[], s, rfl, h, ⟨rfl, by simp [nodesAmong], rfl⟩⟩
  | (key, v) :: rest => by
    rw [nodeCountAll, Nat.add_comm v.nodeCount, ← Nat.add_assoc] at h
    obtain ⟨node, t, hnode, hleft, hkeeps⟩ := toStored_keeps owner v h
    obtain ⟨stored, u, hstored, hsupplies, hkeepsAll⟩ := toStoredAll_keeps owner rest hleft
    refine ⟨_, u, ?_, hsupplies, hkeeps.cons hkeepsAll key⟩
    rw [toStoredAll, run_bind_ok hnode, run_bind_ok hstored]
    rfl

end

/-- A list of roots can be stored where there are enough identities. -/
theorem mapM_toStored_succeeds (owner : BitstreamId) (roots : List View) {k : Nat} {s : σ}
    (h : Supplies (k + totalNodes roots) s) :
    ∃ stored t, (roots.mapM (toStored (nextId : StoreM σ Nat) owner)).run.run s =
      (.ok stored, t) ∧ Supplies k t := by
  induction roots generalizing s with
  | nil => exact ⟨[], s, rfl, h⟩
  | cons v rest ih =>
      have hcount : k + totalNodes (v :: rest) = k + totalNodes rest + v.nodeCount := by
        rw [Nat.add_assoc, Nat.add_comm (totalNodes rest)]
        rfl
      rw [hcount] at h
      obtain ⟨node, t, hnode, hleft, -⟩ := toStored_keeps owner v h
      obtain ⟨stored, u, hstored, hsupplies⟩ := ih hleft
      refine ⟨node :: stored, u, ?_, hsupplies⟩
      rw [List.mapM_cons, run_bind_ok hnode, run_bind_ok hstored]
      rfl

/-! ### Breaking off

A conversion may fail at any of its calls.  What a call for an identity keeps is kept up to
there; and what it gives, if it gives anything, is the whole tree. -/

mutual

theorem toStored_endsIn {P : σ → Prop}
    (hnext : ∀ s, P s → P ((nextId : StoreM σ Nat).run.run s).2) (owner : BitstreamId)
    (v : View) {s : σ} (h : P s) :
    EndsIn P (fun node => node.Keeps owner v)
      ((v.toStored (nextId : StoreM σ Nat) owner).run.run s) :=
  match v with
  | ⟨name, content, size, isDirectory, children⟩ => by
    have hid : EndsIn P (fun _ => True) ((nextId : StoreM σ Nat).run.run s) :=
      ⟨hnext s h, fun _ _ => trivial⟩
    rw [toStored]
    refine hid.bind fun id t _ ht => ?_
    refine (toStoredAll_endsIn hnext owner children ht).bind fun stored u hstored hu => ?_
    exact .pure (hstored.parent id name content size isDirectory) hu

theorem toStoredAll_endsIn {P : σ → Prop}
    (hnext : ∀ s, P s → P ((nextId : StoreM σ Nat).run.run s).2) (owner : BitstreamId)
    (children : List (String × View)) {s : σ} (h : P s) :
    EndsIn P (fun stored => KeepsAll stored owner children)
      ((toStoredAll (nextId : StoreM σ Nat) owner children).run.run s) :=
  match children with
  | [] => .pure ⟨rfl, by simp [nodesAmong], rfl⟩ h
  | (key, v) :: rest => by
    rw [toStoredAll]
    refine (toStored_endsIn hnext owner v h).bind fun node t hnode ht => ?_
    refine (toStoredAll_endsIn hnext owner rest ht).bind fun stored u hstored hu => ?_
    exact .pure (hnode.cons hstored key) hu

end

/-- The same for a list of roots. -/
theorem mapM_toStored_endsIn {P : σ → Prop}
    (hnext : ∀ s, P s → P ((nextId : StoreM σ Nat).run.run s).2) (owner : BitstreamId)
    (roots : List View) {s : σ} (h : P s) :
    EndsIn P (fun stored => stored.map toView = roots)
      ((roots.mapM (toStored (nextId : StoreM σ Nat) owner)).run.run s) := by
  induction roots generalizing s with
  | nil => exact .pure rfl h
  | cons v rest ih =>
      rw [List.mapM_cons]
      refine (toStored_endsIn hnext owner v h).bind fun node t hnode ht => ?_
      refine (ih ht).bind fun stored u hstored hu => ?_
      exact .pure (by rw [List.map_cons, hnode.toView_eq, hstored]) hu

/-- **Storing a tree loses nothing.**  Over any store that can hand out as many
identities as a tree has nodes, the tree can be stored for any owner.  The view of
what is stored is the tree with the order of its children, whatever their keys,
contents and sizes are; every node belongs to the owner; and there are as many
nodes as before. -/
theorem toStored_lossless (owner : BitstreamId) (v : View) {s : σ}
    (h : Supplies v.nodeCount s) :
    ∃ node t, (v.toStored (nextId : StoreM σ Nat) owner).run.run s = (.ok node, t) ∧
      node.toView = v ∧ (∀ part ∈ node.nodes, part.bitstream = owner) ∧
      node.nodeCount = v.nodeCount := by
  obtain ⟨node, t, hrun, -, hkeeps⟩ := toStored_keeps owner v (k := 0) (by rwa [Nat.zero_add])
  exact ⟨node, t, hrun, hkeeps.toView_eq, hkeeps.owned, hkeeps.count_eq⟩

end

/-- A file with children under keys that are not their names, the largest size among
them, over a store whose calls for an identity fail from the fourth on. -/
theorem toStored_lossless_file_with_children :
    let v : View := ⟨"a.zip", "text", 18446744073709551615, false,
      [("z", .file "b" 10), ("a", .directory "z")]⟩
    let s : Unreliable := { faults := { fails := fun operation n => operation = .nextId && 3 ≤ n } }
    Supplies v.nodeCount s ∧
      ∃ node t, (v.toStored (nextId : StoreM Unreliable Nat) "b").run.run s = (.ok node, t) ∧
        node.toView = v ∧ (∀ part ∈ node.nodes, part.bitstream = "b") ∧ node.nodeCount = 3 := by
  intro v s
  have h : Supplies v.nodeCount s := ⟨1, _, rfl, 2, _, rfl, 3, _, rfl, trivial⟩
  exact ⟨h, toStored_lossless "b" v h⟩

end View

end ContentPreview
