import ContentPreview.Proofs.Tree.Numbering
import Mathlib.Data.List.Nodup
import Mathlib.Logic.Relation

/-!
# Identities in the store in memory

Every node that is numbered takes an identity that no node had before, and keeps
it.  A tree is numbered before it is offered to the store, and the store may refuse
it; its identities are then lost.  So the invariant is about the stored trees and
those that were numbered and still wait together: their nodes have distinct
identities between one and the next identity, and each belongs to the bitstream of
its tree.

What one operation does to these trees is an exchange: some trees go, some come
with identities from the next one on, and nothing else changes (`Step.exchange`).
The invariant follows, and so does that an identity that was spent and is gone stays
away for good.

Among distinct identities a search has one possible answer.  It is the same in
whatever order the bitstreams are visited.

## Main definitions

* `Memory.nodes` — the nodes of all stored trees.
* `Numbered` — trees with distinct identities in a range.
* `Intake`, `Intake.Step` — a store with the trees that wait for it, and one
  operation on it.

## Main results

* `Step.exchange` — the trees after an operation.
* `Intake.identities_unique` — identities are unique and never used again.
-/

namespace ContentPreview

open StoredNode

/-- The nodes of a list of trees, each of which is given with its bitstream. -/
def nodesOf (entries : List (BitstreamId × StoredNode)) : List StoredNode :=
  entries.flatMap fun (_, root) => root.nodes

theorem nodesOf_append (xs ys : List (BitstreamId × StoredNode)) :
    nodesOf (xs ++ ys) = nodesOf xs ++ nodesOf ys := List.flatMap_append

theorem mem_nodesOf {entries : List (BitstreamId × StoredNode)} {node : StoredNode} :
    node ∈ nodesOf entries ↔ ∃ entry ∈ entries, node ∈ entry.2.nodes := List.mem_flatMap

/-! ## The nodes of a store -/

namespace Memory

/-- The stored trees, each with the bitstream that it is stored for. -/
def rooted (m : Memory) : List (BitstreamId × StoredNode) :=
  m.trees.flatMap fun (b, roots) => roots.map fun root => (b, root)

/-- The nodes of all stored trees. -/
def nodes (m : Memory) : List StoredNode := nodesOf m.rooted

variable {m : Memory} {b : BitstreamId}

theorem mem_rooted {root : StoredNode} :
    (b, root) ∈ m.rooted ↔ ∃ roots, (b, roots) ∈ m.trees ∧ root ∈ roots := by
  unfold rooted
  simp only [List.mem_flatMap, List.mem_map, Prod.mk.injEq]
  constructor
  · rintro ⟨⟨c, roots⟩, hentry, root', hroot, rfl, rfl⟩
    exact ⟨roots, hentry, hroot⟩
  · rintro ⟨roots, hentry, hroot⟩
    exact ⟨(b, roots), hentry, root, hroot, rfl, rfl⟩

theorem mem_rooted_of_mem_roots {root : StoredNode} (h : root ∈ m.roots b) :
    (b, root) ∈ m.rooted := by
  unfold roots at h
  cases hfound : m.trees.lookup b with
  | none => simp [hfound] at h
  | some roots =>
      rw [hfound] at h
      exact mem_rooted.2 ⟨roots, Keyed.mem_of_lookup hfound, h⟩

theorem findNode?_eq (m : Memory) (id : Nat) :
    m.findNode? id = m.nodes.find? (fun node => node.id == id) := by
  unfold findNode? nodes nodesOf rooted
  rw [List.flatMap_assoc, List.find?_flatMap]
  refine congrArg (fun search => m.trees.findSome? search) (funext fun entry => ?_)
  obtain ⟨b, roots⟩ := entry
  rw [List.flatMap_map, List.find?_flatMap]
  exact congrArg (fun search => roots.findSome? search) (funext fun root => find?_eq id root)

/-- Among distinct identities the search finds the one node that there is. -/
theorem findNode?_eq_some_iff (hnodup : (m.nodes.map StoredNode.id).Nodup) (id : Nat)
    (node : StoredNode) : m.findNode? id = some node ↔ node ∈ m.nodes ∧ node.id = id := by
  rw [findNode?_eq]
  constructor
  · intro hfound
    exact ⟨List.mem_of_find?_eq_some hfound, by simpa using List.find?_some hfound⟩
  · rintro ⟨hmem, hid⟩
    cases hfound : m.nodes.find? (fun node => node.id == id) with
    | none =>
        have hnot := List.find?_eq_none.1 hfound node hmem
        exact absurd hid (by simpa using hnot)
    | some other =>
        have hother : other.id = id := by simpa using List.find?_some hfound
        have hsame := List.inj_on_of_nodup_map hnodup (List.mem_of_find?_eq_some hfound) hmem
          (hother.trans hid.symm)
        rw [hsame]

theorem findNode?_eq_none {id : Nat} (h : ∀ node ∈ m.nodes, node.id ≠ id) :
    m.findNode? id = none := by
  rw [findNode?_eq, List.find?_eq_none]
  intro node hnode
  simpa using h node hnode

/-- The same trees in another order have the same nodes. -/
theorem nodes_perm {trees : List (BitstreamId × List StoredNode)} (h : trees.Perm m.trees) :
    ({ m with trees } : Memory).nodes.Perm m.nodes :=
  (h.flatMap_right _).flatMap_right _

theorem rooted_insert (roots : List StoredNode) :
    (m.insert b roots).rooted = m.rooted ∨
      (m.insert b roots).rooted = m.rooted ++ roots.map fun root => (b, root) := by
  unfold insert
  by_cases hrefused : (roots.isEmpty || m.has b) = true
  · rw [if_pos hrefused]
    exact Or.inl rfl
  · rw [if_neg hrefused]
    refine Or.inr ?_
    unfold rooted
    rw [List.flatMap_append, List.flatMap_singleton]

theorem rooted_erase : (m.erase b).rooted = m.rooted.filter fun entry => entry.1 != b := by
  unfold erase rooted
  dsimp only
  induction m.trees with
  | nil => rfl
  | cons entry rest ih =>
      obtain ⟨c, roots⟩ := entry
      rw [List.flatMap_cons, List.filter_append, ← ih]
      by_cases hc : c = b
      · have hnone : (roots.map fun root => (c, root)).filter (fun entry => entry.1 != b) = [] := by
          simp [hc]
        rw [List.filter_cons_of_neg (by simpa using hc), hnone, List.nil_append]
      · have hall : (roots.map fun root => (c, root)).filter (fun entry => entry.1 != b) =
            roots.map fun root => (c, root) := by
          simp [hc]
        rw [List.filter_cons_of_pos (by simpa using hc), List.flatMap_cons, hall]

end Memory

/-! ## Trees with distinct identities -/

/-- The nodes of the trees have distinct identities from `low` on and below `high`, and
belong to the bitstreams of their trees. -/
structure Numbered (low high : Nat) (entries : List (BitstreamId × StoredNode)) : Prop where
  nodup : ((nodesOf entries).map StoredNode.id).Nodup
  range : ∀ node ∈ nodesOf entries, low ≤ node.id ∧ node.id < high
  owned : ∀ entry ∈ entries, ∀ node ∈ entry.2.nodes, node.bitstream = entry.1

namespace Numbered

variable {low middle high : Nat} {xs ys : List (BitstreamId × StoredNode)}

theorem nil (low high : Nat) : Numbered low high [] where
  nodup := List.nodup_nil
  range := by simp [nodesOf]
  owned := by simp

theorem append (hx : Numbered low middle xs) (hy : Numbered middle high ys)
    (hlow : low ≤ middle) (hhigh : middle ≤ high) : Numbered low high (xs ++ ys) where
  nodup := by
    rw [nodesOf_append, List.map_append]
    refine List.nodup_append.2 ⟨hx.nodup, hy.nodup, ?_⟩
    intro id hid id' hid'
    obtain ⟨node, hnode, rfl⟩ := List.mem_map.1 hid
    obtain ⟨node', hnode', rfl⟩ := List.mem_map.1 hid'
    have hbelow := (hx.range node hnode).2
    have habove := (hy.range node' hnode').1
    omega
  range := by
    intro node hnode
    rw [nodesOf_append, List.mem_append] at hnode
    rcases hnode with hnode | hnode
    · have h := hx.range node hnode
      omega
    · have h := hy.range node hnode
      omega
  owned := by
    intro entry hentry
    rcases List.mem_append.1 hentry with hentry | hentry
    · exact hx.owned entry hentry
    · exact hy.owned entry hentry

theorem perm (hx : Numbered low high xs) (h : ys.Perm xs) : Numbered low high ys where
  nodup := (((h.flatMap_right _).map StoredNode.id).nodup_iff).2 hx.nodup
  range := fun node hnode => hx.range node ((h.flatMap_right _).mem_iff.1 hnode)
  owned := fun entry hentry => hx.owned entry (h.mem_iff.1 hentry)

theorem left (h : Numbered low high (xs ++ ys)) : Numbered low high xs where
  nodup := by
    have hnodup := h.nodup
    rw [nodesOf_append, List.map_append] at hnodup
    exact (List.nodup_append.1 hnodup).1
  range := fun node hnode => h.range node (by
    rw [nodesOf_append]
    exact List.mem_append_left _ hnode)
  owned := fun entry hentry => h.owned entry (List.mem_append_left _ hentry)

/-- No identity occurs in two parts of the trees. -/
theorem id_ne (h : Numbered low high (xs ++ ys)) {node node' : StoredNode}
    (hnode : node ∈ nodesOf xs) (hnode' : node' ∈ nodesOf ys) : node.id ≠ node'.id := by
  have hnodup := h.nodup
  rw [nodesOf_append, List.map_append] at hnodup
  exact (List.nodup_append.1 hnodup).2.2 _ (List.mem_map_of_mem hnode) _
    (List.mem_map_of_mem hnode')

/-- Identities that fit a 64-bit word are distinct as words. -/
theorem words_nodup (h : Numbered low high xs) (hhigh : high ≤ UInt64.size) :
    ((nodesOf xs).map fun node => UInt64.ofNat node.id).Nodup := by
  have hids : ((nodesOf xs).map fun node => UInt64.ofNat node.id).map UInt64.toNat =
      (nodesOf xs).map StoredNode.id := by
    rw [List.map_map]
    refine List.map_congr_left fun node hnode => ?_
    have hlt := (h.range node hnode).2
    exact UInt64.toNat_ofNat_of_lt' (by omega)
  refine List.Nodup.of_map UInt64.toNat ?_
  rw [hids]
  exact h.nodup

end Numbered

/-- A numbered tree takes the identities from its number on. -/
theorem numbered_of_view (b : BitstreamId) (n : Nat) (v : View) :
    Numbered n (n + v.nodeCount) [(b, v.numbered b n)] := by
  have hnodes : nodesOf [(b, v.numbered b n)] = (v.numbered b n).nodes := by simp [nodesOf]
  have hids := v.map_id_numbered b n
  constructor
  · rw [hnodes, hids]
    exact List.nodup_range'
  · intro node hnode
    rw [hnodes] at hnode
    have hmem := List.mem_map_of_mem (f := StoredNode.id) hnode
    rw [hids, List.mem_range'_1] at hmem
    exact hmem
  · intro entry hentry
    rw [List.mem_singleton] at hentry
    subst hentry
    exact (v.keeps_numbered b n).owned

/-! ## Operations -/

/-- A store in memory, with the trees that were numbered for it and wait to be
inserted. -/
structure Intake where
  memory : Memory := {}
  waiting : List (BitstreamId × StoredNode) := []

namespace Intake

/-- The stored trees and those that wait. -/
def entries (s : Intake) : List (BitstreamId × StoredNode) := s.memory.rooted ++ s.waiting

/-- One operation on the store.  A tree that was numbered waits until it is inserted:
under the bitstream that it was numbered for, with any others of that bitstream and in
any order, and whether the store then takes it or not. -/
inductive Step : Intake → Intake → Prop where
  /-- An identity is handed out. -/
  | draw {m m' : Memory} {waiting : List (BitstreamId × StoredNode)} {id : Nat}
      (run : (Store.nextId : StoreM Memory Nat).run.run m = (.ok id, m')) :
      Step ⟨m, waiting⟩ ⟨m', waiting⟩
  /-- A tree is numbered for a bitstream. -/
  | number {m m' : Memory} {waiting : List (BitstreamId × StoredNode)} {b : BitstreamId}
      {node : StoredNode} (v : View)
      (run : (v.toStored (Store.nextId : StoreM Memory Nat) b).run.run m = (.ok node, m')) :
      Step ⟨m, waiting⟩ ⟨m', (b, node) :: waiting⟩
  /-- Trees that wait are inserted. -/
  | insert {m m' : Memory} {waiting : List (BitstreamId × StoredNode)} {b : BitstreamId}
      {roots : List StoredNode} {outcome : InsertOutcome} (rest : List (BitstreamId × StoredNode))
      (taken : waiting.Perm (roots.map (fun root => (b, root)) ++ rest))
      (run : (Store.insertTree b roots : StoreM Memory InsertOutcome).run.run m =
        (.ok outcome, m')) :
      Step ⟨m, waiting⟩ ⟨m', rest⟩
  /-- The trees of a bitstream are deleted. -/
  | delete {m m' : Memory} {waiting : List (BitstreamId × StoredNode)} {b : BitstreamId}
      {count : Nat}
      (run : (Store.deleteTree b : StoreM Memory Nat).run.run m = (.ok count, m')) :
      Step ⟨m, waiting⟩ ⟨m', waiting⟩

/-- What comes and goes in one operation: the trees afterwards and those that are gone
are the trees before and those that are new, and the new ones take identities from the
next one on. -/
structure Exchange (s t : Intake) (gone fresh : List (BitstreamId × StoredNode)) : Prop where
  perm : (t.entries ++ gone).Perm (s.entries ++ fresh)
  le : s.memory.nextId ≤ t.memory.nextId
  numbered : Numbered s.memory.nextId t.memory.nextId fresh

theorem exchange_of_delete {m m' : Memory} (waiting : List (BitstreamId × StoredNode))
    {b : BitstreamId} {count : Nat}
    (run : (Store.deleteTree b : StoreM Memory Nat).run.run m = (.ok count, m')) :
    Exchange ⟨m, waiting⟩ ⟨m', waiting⟩ (m.rooted.filter fun entry => !(entry.1 != b)) [] := by
  rw [Memory.run_deleteTree] at run
  cases run
  refine ⟨?_, Nat.le_refl _, Numbered.nil _ _⟩
  have hparts := (List.filter_append_perm (fun entry => entry.1 != b) m.rooted).append_right waiting
  have hswap : (waiting ++ m.rooted.filter fun entry => !(entry.1 != b)).Perm
      ((m.rooted.filter fun entry => !(entry.1 != b)) ++ waiting) := List.perm_append_comm
  unfold entries
  rw [Memory.rooted_erase, List.append_nil, List.append_assoc]
  refine (hswap.append_left _).trans ?_
  rwa [← List.append_assoc]

/-- A tree that is refused goes with its identities, and one that is kept only changes its
place. -/
theorem exchange_of_insert {m m' : Memory} {waiting rest : List (BitstreamId × StoredNode)}
    {b : BitstreamId} {roots : List StoredNode} {outcome : InsertOutcome}
    (taken : waiting.Perm (roots.map (fun root => (b, root)) ++ rest))
    (run : (Store.insertTree b roots : StoreM Memory InsertOutcome).run.run m =
      (.ok outcome, m')) :
    ∃ gone, Exchange ⟨m, waiting⟩ ⟨m', rest⟩ gone [] := by
  rw [Memory.run_insertTree] at run
  cases run
  have hnext : (m.insert b roots).nextId = m.nextId := by
    unfold Memory.insert
    split <;> rfl
  have hwaiting := taken.append_left m.rooted
  have hle : m.nextId ≤ (m.insert b roots).nextId := by omega
  rcases Memory.rooted_insert (m := m) (b := b) roots with hrefused | hkept
  · refine ⟨roots.map fun root => (b, root), ?_, hle, Numbered.nil _ _⟩
    unfold entries
    rw [hrefused, List.append_nil, List.append_assoc]
    exact (List.perm_append_comm.append_left _).trans hwaiting.symm
  · refine ⟨[], ?_, hle, Numbered.nil _ _⟩
    unfold entries
    rw [hkept, List.append_nil, List.append_nil, List.append_assoc]
    exact hwaiting.symm

/-- Every operation exchanges trees. -/
theorem Step.exchange {s t : Intake} (h : Step s t) : ∃ gone fresh, Exchange s t gone fresh := by
  cases h with
  | @draw m m' waiting id run =>
      rw [Memory.run_nextId] at run
      cases run
      exact ⟨[], [], .refl _, Nat.le_succ _, Numbered.nil _ _⟩
  | @number m m' waiting b node v run =>
      rw [View.toStored_run] at run
      cases run
      refine ⟨[], [(b, v.numbered b m.nextId)], ?_, Nat.le_add_right _ _,
        numbered_of_view b m.nextId v⟩
      have hlast := List.perm_append_singleton (b, v.numbered b m.nextId) waiting
      unfold entries
      rw [List.append_nil, List.append_assoc]
      exact hlast.symm.append_left _
  | insert rest taken run =>
      obtain ⟨gone, hexchange⟩ := exchange_of_insert taken run
      exact ⟨gone, [], hexchange⟩
  | delete run => exact ⟨_, [], exchange_of_delete _ run⟩

/-! ## Runs -/

/-- The trees have distinct identities among those that were handed out. -/
structure Sound (s : Intake) : Prop where
  pos : 1 ≤ s.memory.nextId
  numbered : Numbered 1 s.memory.nextId s.entries

theorem Exchange.numbered_all {s t : Intake} {gone fresh : List (BitstreamId × StoredNode)}
    (h : Exchange s t gone fresh) (hsound : s.Sound) :
    Numbered 1 t.memory.nextId (t.entries ++ gone) :=
  (hsound.numbered.append h.numbered hsound.pos h.le).perm h.perm

theorem Sound.step {s t : Intake} (hsound : s.Sound) (h : Step s t) : t.Sound := by
  obtain ⟨gone, fresh, hexchange⟩ := h.exchange
  exact ⟨Nat.le_trans hsound.pos hexchange.le, (hexchange.numbered_all hsound).left⟩

theorem sound_of_reachable {s : Intake} (h : Relation.ReflTransGen Step {} s) : s.Sound := by
  induction h with
  | refl => exact ⟨Nat.le_refl 1, Numbered.nil _ _⟩
  | tail _ hstep ih => exact ih.step hstep

/-- An identity that was handed out and that no tree has. -/
def Spent (s : Intake) (id : Nat) : Prop :=
  id < s.memory.nextId ∧ ∀ node ∈ nodesOf s.entries, node.id ≠ id

theorem Spent.step {s t : Intake} {id : Nat} (hspent : s.Spent id) (h : Step s t) :
    t.Spent id := by
  obtain ⟨gone, fresh, hexchange⟩ := h.exchange
  refine ⟨Nat.lt_of_lt_of_le hspent.1 hexchange.le, ?_⟩
  intro node hnode
  have hall : node ∈ nodesOf (t.entries ++ gone) := by
    rw [nodesOf_append]
    exact List.mem_append_left _ hnode
  have hmem : node ∈ nodesOf (s.entries ++ fresh) :=
    (hexchange.perm.flatMap_right _).mem_iff.1 hall
  rw [nodesOf_append, List.mem_append] at hmem
  rcases hmem with hold | hnew
  · exact hspent.2 node hold
  · have hrange := hexchange.numbered.range node hnew
    have hlt := hspent.1
    omega

theorem Spent.reachable {s t : Intake} {id : Nat} (hspent : s.Spent id)
    (h : Relation.ReflTransGen Step s t) : t.Spent id := by
  induction h with
  | refl => exact hspent
  | tail _ hstep ih => exact ih.step hstep

/-- The identities of a deleted tree are spent: what is left and what was deleted are the
trees from before, and so share none. -/
theorem spent_of_delete {m m' : Memory} {waiting : List (BitstreamId × StoredNode)}
    {b : BitstreamId} {count : Nat} (hsound : Sound ⟨m, waiting⟩)
    (run : (Store.deleteTree b : StoreM Memory Nat).run.run m = (.ok count, m'))
    {root : StoredNode} (hroot : root ∈ m.roots b) {node : StoredNode} (hnode : node ∈ root.nodes) :
    Spent ⟨m', waiting⟩ node.id := by
  have hexchange := exchange_of_delete waiting run
  have hentry := Memory.mem_rooted_of_mem_roots hroot
  have hgone : node ∈ nodesOf (m.rooted.filter fun entry => !(entry.1 != b)) :=
    mem_nodesOf.2 ⟨(b, root), List.mem_filter.2 ⟨hentry, by simp⟩, hnode⟩
  have hall := hexchange.numbered_all hsound
  refine ⟨(hall.range node ?_).2, ?_⟩
  · rw [nodesOf_append]
    exact List.mem_append_right _ hgone
  · intro other hother
    exact hall.id_ne hother hgone

theorem Spent.findNode? {s : Intake} {id : Nat} (h : s.Spent id) :
    s.memory.findNode? id = none := by
  refine Memory.findNode?_eq_none ?_
  intro node hnode
  refine h.2 node ?_
  unfold entries
  rw [nodesOf_append]
  exact List.mem_append_left _ hnode

/-- **Identities are unique and never used again.**  In every state that operations
lead to from the empty store, the nodes of the stored trees have distinct identities
from one on and below the next one, which differ also as 64-bit words as long as these
are not used up, and every node belongs to the bitstream of its tree.  So the search for
an identity finds a node exactly if a stored tree has it, and then the one node that
has it, in whatever order the bitstreams are visited.  Once a tree was deleted, none of
its identities is found in any later state. -/
theorem identities_unique {s : Intake} (h : Relation.ReflTransGen Step {} s) :
    let m := s.memory
    (m.nodes.map StoredNode.id).Nodup ∧
      (∀ node ∈ m.nodes, 1 ≤ node.id ∧ node.id < m.nextId) ∧
      (m.nextId ≤ UInt64.size → (m.nodes.map fun node => UInt64.ofNat node.id).Nodup) ∧
      (∀ b roots, (b, roots) ∈ m.trees →
        ∀ root ∈ roots, ∀ node ∈ root.nodes, node.bitstream = b) ∧
      (∀ id node, m.findNode? id = some node ↔ node ∈ m.nodes ∧ node.id = id) ∧
      (∀ trees, trees.Perm m.trees →
        ∀ id, ({ m with trees } : Memory).findNode? id = m.findNode? id) ∧
      ∀ b count m' t, (Store.deleteTree b : StoreM Memory Nat).run.run m = (.ok count, m') →
        Relation.ReflTransGen Step ⟨m', s.waiting⟩ t →
          ∀ root ∈ m.roots b, ∀ node ∈ root.nodes, t.memory.findNode? node.id = none := by
  intro m
  have hsound := sound_of_reachable h
  have hstored : Numbered 1 m.nextId m.rooted := hsound.numbered.left
  refine ⟨hstored.nodup, hstored.range, hstored.words_nodup, ?_,
    Memory.findNode?_eq_some_iff hstored.nodup, ?_, ?_⟩
  · intro b roots hentry root hroot
    exact hstored.owned (b, root) (Memory.mem_rooted.2 ⟨roots, hentry, hroot⟩)
  · intro trees hperm id
    have hnodes := Memory.nodes_perm hperm
    have hnodup := ((hnodes.map StoredNode.id).nodup_iff).2 hstored.nodup
    refine Option.ext fun node => ?_
    rw [Memory.findNode?_eq_some_iff hnodup, Memory.findNode?_eq_some_iff hstored.nodup,
      hnodes.mem_iff]
  · intro b count m' t hrun hlater root hroot node hnode
    have hspent := spent_of_delete hsound hrun hroot hnode
    exact (hspent.reachable hlater).findNode?

/-- A tree with two nodes is stored, deleted and stored anew, after an identity was
handed out in between. -/
theorem identities_unique_stored_anew :
    let v : View := ⟨"d", "", 0, true, [("a", .file "a" 1)]⟩
    ∃ s t : Intake, Relation.ReflTransGen Step {} s ∧ s.memory.roots "b" = [v.numbered "b" 1] ∧
      t.memory.roots "b" = [v.numbered "b" 4] ∧ t.memory.findNode? 1 = none := by
  intro v
  let m₁ : Memory := ({} : Memory).advanceBy v.nodeCount
  let m₂ := m₁.insert "b" [v.numbered "b" 1]
  let m₃ := (m₂.erase "b").advanceBy 1
  let m₄ := m₃.advanceBy v.nodeCount
  let m₅ := m₄.insert "b" [v.numbered "b" 4]
  have hstored : Relation.ReflTransGen Step {} ⟨m₂, []⟩ :=
    .tail (.single (.number v (v.toStored_run "b" {})))
      (.insert [] (.refl _) (m₁.run_insertTree "b" [v.numbered "b" 1]))
  have hanew : Relation.ReflTransGen Step ⟨m₂.erase "b", []⟩ ⟨m₅, []⟩ :=
    .tail (.tail (.single (.draw (m₂.erase "b").run_nextId)) (.number v (v.toStored_run "b" m₃)))
      (.insert [] (.refl _) (m₄.run_insertTree "b" [v.numbered "b" 4]))
  have hgone := (identities_unique hstored).2.2.2.2.2.2 "b" _ _ _ (m₂.run_deleteTree "b") hanew
  exact ⟨⟨m₂, []⟩, ⟨m₅, []⟩, hstored, rfl, rfl,
    hgone (v.numbered "b" 1) (List.mem_singleton.2 rfl) _ List.mem_cons_self⟩

end Intake

end ContentPreview
