import ContentPreview.Proofs.Loop
import ContentPreview.Proofs.Tree.Nodes

/-!
# The walk over the identities of a tree

The identities of a tree are noted by a loop over a stack of trees.  Every turn takes one
node from the trees on the stack, so there are as many turns as nodes, and the stack holds
what is still to be noted.  What comes out is the listing that recursion on the tree gives:
a node, then the listings of its children from the last to the first.

Identities may be repeated in a tree, and so may whole subtrees.  That every node is noted
once, and before what is below it, is therefore said of addresses: the positions of the
children to take, from the root on.  The order in which the walk goes through the addresses
of a tree has none of them behind itself or behind one that extends it.

## Main definitions

* `StoredNode.turn` — one turn of the walk.
* `StoredNode.backward` — the listing by recursion.
* `StoredNode.part?`, `StoredNode.addressed` — the node at an address, and the nodes with
  their addresses in the order of the walk.

## Main results

* `endsAfter_ids` — the walk ends, with one turn for each node.
* `walk_eq` — what it notes.
* `mem_addressed_iff`, `pairwise_addressed` — every address of a tree occurs, and in order.
* `ids_visit_once` — the walk and the search, on one tree.
-/

namespace ContentPreview

namespace StoredNode

/-! ## The loop -/

/-- One turn of the walk, from what was noted and the stack.  The uppermost tree goes, its
root is noted and its children come, the last one uppermost. -/
def turn : List Nat × List StoredNode → Option (List Nat × List StoredNode)
  | (_, []) => none
  | (noted, node :: stack) => some (noted ++ [node.id], node.subtrees.reverse ++ stack)

theorem turn_eq_none_iff {s : List Nat × List StoredNode} : turn s = none ↔ s.2 = [] := by
  obtain ⟨noted, stack⟩ := s
  cases stack <;> simp [turn]

theorem turn_eq_some {s next : List Nat × List StoredNode} (h : turn s = some next) :
    ∃ noted node stack, s = (noted, node :: stack) ∧
      next = (noted ++ [node.id], node.subtrees.reverse ++ stack) := by
  obtain ⟨noted, stack⟩ := s
  cases stack with
  | nil => cases h
  | cons node stack => exact ⟨noted, node, stack, rfl, (Option.some.inj h).symm⟩

/-- Every turn takes one node from the trees on the stack. -/
theorem totalNodes_turn {s next : List Nat × List StoredNode} (h : turn s = some next) :
    totalNodes next.2 + 1 = totalNodes s.2 := by
  obtain ⟨noted, node, stack, rfl, rfl⟩ := turn_eq_some h
  have hnode := nodeCount_eq node
  show totalNodes (node.subtrees.reverse ++ stack) + 1 = node.nodeCount + totalNodes stack
  rw [totalNodes_append, totalNodes_reverse]
  omega

/-- What was noted and what the stack still gives are the same after a turn. -/
theorem append_walk_turn {s next : List Nat × List StoredNode} (h : turn s = some next) :
    next.1 ++ walk next.2 = s.1 ++ walk s.2 := by
  obtain ⟨noted, node, stack, rfl, rfl⟩ := turn_eq_some h
  show (noted ++ [node.id]) ++ walk (node.subtrees.reverse ++ stack) =
    noted ++ walk (node :: stack)
  rw [walk, List.append_assoc, List.singleton_append]

/-- The walk through a tree ends after one turn for each node, with the identities. -/
theorem endsAfter_ids (node : StoredNode) :
    EndsAfter turn node.nodeCount ([], [node]) (node.ids, []) := by
  have hless (s next : List Nat × List StoredNode) (h : turn s = some next) :
      totalNodes next.2 < totalNodes s.2 := by
    have hone := totalNodes_turn h
    omega
  obtain ⟨n, ⟨noted, stack⟩, hend⟩ :=
    exists_endsAfter (fun s => totalNodes s.2) hless ([], [node])
  obtain rfl : stack = [] := turn_eq_none_iff.1 hend.turn_eq_none
  have hcount : totalNodes [] + n = totalNodes [node] :=
    hend.measure_eq (fun s => totalNodes s.2) fun _ _ h => totalNodes_turn h
  have hnoted : noted ++ walk [] = node.ids :=
    hend.keeps (P := fun s => s.1 ++ walk s.2 = node.ids)
      (fun _ _ h hs => (append_walk_turn h).trans hs) rfl
  obtain rfl : n = node.nodeCount := by
    simp only [totalNodes] at hcount
    omega
  obtain rfl : noted = node.ids := by simpa [walk] using hnoted
  exact hend

/-! ## The listing by recursion -/

mutual

/-- The identities of a tree: that of the root, then those below its children, the last
child first. -/
def backward : StoredNode → List Nat
  | ⟨id, _, _, _, _, _, children⟩ => id :: backwardAmong children

/-- The identities below the children of a node, the last child first. -/
def backwardAmong : List (String × StoredNode) → List Nat
  | [] => []
  | (_, node) :: rest => backwardAmong rest ++ node.backward

end

theorem backwardAmong_eq (children : List (String × StoredNode)) :
    backwardAmong children = (children.map Prod.snd).reverse.flatMap backward := by
  induction children with
  | nil => rfl
  | cons entry rest ih =>
      obtain ⟨key, node⟩ := entry
      rw [backwardAmong, ih, List.map_cons, List.reverse_cons, List.flatMap_append,
        List.flatMap_singleton]

theorem backward_eq (node : StoredNode) :
    node.backward = node.id :: node.subtrees.reverse.flatMap backward := by
  obtain ⟨id, owner, name, content, isDirectory, size, children⟩ := node
  rw [backward, backwardAmong_eq]
  rfl

/-- The stack gives the listings of its trees, from the uppermost one down. -/
theorem walk_eq (stack : List StoredNode) : walk stack = stack.flatMap backward := by
  fun_induction walk stack with
  | case1 => rfl
  | case2 node stack ih =>
      rw [ih, List.flatMap_cons, List.flatMap_append, backward_eq, List.cons_append]

theorem ids_eq (node : StoredNode) : node.ids = node.backward := by
  unfold ids
  rw [walk_eq, List.flatMap_singleton]

mutual

theorem backward_perm (node : StoredNode) : node.backward.Perm (node.nodes.map id) :=
  match node with
  | ⟨id, owner, name, content, isDirectory, size, children⟩ => by
    rw [backward, nodes, List.map_cons]
    exact (backwardAmong_perm children).cons id

theorem backwardAmong_perm (children : List (String × StoredNode)) :
    (backwardAmong children).Perm ((nodesAmong children).map id) :=
  match children with
  | [] => .nil
  | (_, node) :: rest => by
    rw [backwardAmong, nodesAmong, List.map_append]
    exact List.perm_append_comm.trans ((backward_perm node).append (backwardAmong_perm rest))

end

/-! ## Addresses -/

/-- The node at an address: at each step the child at that position. -/
def part? : StoredNode → List Nat → Option StoredNode
  | node, [] => some node
  | node, i :: rest => node.subtrees[i]?.bind fun child => child.part? rest

mutual

/-- The nodes of a tree with their addresses, a node first and then what is below its
children, the last child first. -/
def addressed : StoredNode → List (List Nat × StoredNode)
  | ⟨id, owner, name, content, isDirectory, size, children⟩ =>
    ([], ⟨id, owner, name, content, isDirectory, size, children⟩) :: addressedFrom 0 children

/-- The same for the children of a node from position `i` on. -/
def addressedFrom (i : Nat) : List (String × StoredNode) → List (List Nat × StoredNode)
  | [] => []
  | (_, node) :: rest => addressedFrom (i + 1) rest ++ node.addressed.map fun e => (i :: e.1, e.2)

end

theorem addressed_eq (node : StoredNode) :
    node.addressed = ([], node) :: addressedFrom 0 node.children := by
  obtain ⟨id, owner, name, content, isDirectory, size, children⟩ := node
  rw [addressed]

mutual

theorem map_id_addressed (node : StoredNode) :
    node.addressed.map (fun e => e.2.id) = node.backward :=
  match node with
  | ⟨id, owner, name, content, isDirectory, size, children⟩ => by
    rw [addressed, backward, List.map_cons, map_id_addressedFrom 0 children]

theorem map_id_addressedFrom (i : Nat) (children : List (String × StoredNode)) :
    (addressedFrom i children).map (fun e => e.2.id) = backwardAmong children :=
  match children with
  | [] => rfl
  | (_, node) :: rest => by
    rw [addressedFrom, backwardAmong, List.map_append, List.map_map,
      map_id_addressedFrom (i + 1) rest, ← map_id_addressed node]
    rfl

end

theorem mem_addressedFrom {i : Nat} {children : List (String × StoredNode)}
    {e : List Nat × StoredNode} :
    e ∈ addressedFrom i children ↔ ∃ j child, (children.map Prod.snd)[j]? = some child ∧
      ∃ e' ∈ child.addressed, e = ((i + j) :: e'.1, e'.2) := by
  induction children generalizing i with
  | nil => simp [addressedFrom]
  | cons entry rest ih =>
      obtain ⟨key, node⟩ := entry
      rw [addressedFrom, List.mem_append, ih, List.mem_map]
      constructor
      · rintro (⟨j, child, hchild, e', he', rfl⟩ | ⟨e', he', rfl⟩)
        · exact ⟨j + 1, child, hchild, e', he', by rw [Nat.add_assoc, Nat.add_comm 1]⟩
        · exact ⟨0, node, rfl, e', he', rfl⟩
      · rintro ⟨j, child, hchild, e', he', rfl⟩
        cases j with
        | zero =>
            obtain rfl : node = child := Option.some.inj hchild
            exact .inr ⟨e', he', rfl⟩
        | succ j =>
            exact .inl ⟨j, child, hchild, e', he', by rw [Nat.add_assoc, Nat.add_comm 1]⟩

/-- A node is listed with its address, and with nothing else. -/
theorem mem_addressed_iff {node part : StoredNode} {address : List Nat} :
    (address, part) ∈ node.addressed ↔ node.part? address = some part := by
  induction address generalizing node with
  | nil =>
      rw [addressed_eq, part?, List.mem_cons, mem_addressedFrom, Option.some.injEq]
      simp [eq_comm]
  | cons i rest ih =>
      rw [addressed_eq, part?, List.mem_cons, mem_addressedFrom, Option.bind_eq_some_iff]
      constructor
      · rintro (hroot | ⟨j, child, hchild, ⟨below, found⟩, hbelow, heq⟩)
        · cases hroot
        · obtain ⟨hhead, rfl⟩ := Prod.mk.inj heq
          obtain ⟨rfl, rfl⟩ := List.cons.inj hhead
          rw [Nat.zero_add]
          exact ⟨child, hchild, ih.1 hbelow⟩
      · rintro ⟨child, hchild, hpart⟩
        exact .inr ⟨i, child, hchild, (rest, part), ih.2 hpart, by rw [Nat.zero_add]⟩

/-! ### Their order -/

/-- An order that has every node of a tree once, and before the nodes below it.  No address
is followed by one that it begins with, be it the same or that of a node above. -/
structure VisitsOnce (node : StoredNode) (addresses : List (List Nat)) : Prop where
  complete : ∀ address, address ∈ addresses ↔ (node.part? address).isSome = true
  parentFirst : addresses.Pairwise fun earlier later => ¬ later <+: earlier

mutual

theorem pairwise_addressed (node : StoredNode) :
    (node.addressed.map Prod.fst).Pairwise fun earlier later => ¬ later <+: earlier :=
  match node with
  | ⟨id, owner, name, content, isDirectory, size, children⟩ => by
    rw [addressed, List.map_cons, List.pairwise_cons]
    refine ⟨?_, pairwise_addressedFrom 0 children⟩
    intro later hlater
    obtain ⟨e, he, rfl⟩ := List.mem_map.1 hlater
    obtain ⟨j, child, -, e', -, rfl⟩ := mem_addressedFrom.1 he
    simp

theorem pairwise_addressedFrom (i : Nat) (children : List (String × StoredNode)) :
    ((addressedFrom i children).map Prod.fst).Pairwise fun earlier later => ¬ later <+: earlier :=
  match children with
  | [] => .nil
  | (_, node) :: rest => by
    rw [addressedFrom, List.map_append, List.pairwise_append]
    refine ⟨pairwise_addressedFrom (i + 1) rest, ?_, ?_⟩
    · have hbelow := List.pairwise_map.1 (pairwise_addressed node)
      rw [List.map_map, List.pairwise_map]
      exact hbelow.imp fun hnot hpre => hnot (List.cons_prefix_cons.1 hpre).2
    · intro earlier hearlier later hlater hpre
      obtain ⟨e, he, rfl⟩ := List.mem_map.1 hearlier
      obtain ⟨j, child, -, e', -, rfl⟩ := mem_addressedFrom.1 he
      rw [List.map_map, List.mem_map] at hlater
      obtain ⟨d, -, rfl⟩ := hlater
      have hposition : i = i + 1 + j := (List.cons_prefix_cons.1 hpre).1
      omega

end

theorem visitsOnce_addressed (node : StoredNode) :
    node.VisitsOnce (node.addressed.map Prod.fst) where
  complete := by
    intro address
    rw [List.mem_map, Option.isSome_iff_exists]
    constructor
    · rintro ⟨⟨_, part⟩, hmem, rfl⟩
      exact ⟨part, mem_addressed_iff.1 hmem⟩
    · rintro ⟨part, hpart⟩
      exact ⟨(address, part), mem_addressed_iff.2 hpart, rfl⟩
  parentFirst := pairwise_addressed node

/-- The walk notes the identities of the nodes at the addresses. -/
theorem map_some_ids (node : StoredNode) :
    node.ids.map some =
      (node.addressed.map Prod.fst).map fun address => (node.part? address).map id := by
  rw [ids_eq, ← map_id_addressed, List.map_map, List.map_map]
  refine List.map_congr_left fun e he => ?_
  show some e.2.id = (node.part? e.1).map id
  rw [mem_addressed_iff.1 he, Option.map_some]

/-! ## The walk and the search -/

/-- **The walk visits every node once.**  The loop ends after as many turns as the tree has
nodes, and what was noted is the listing that has a node first and then the listings of its
children from the last to the first.  So it has as many entries as there are nodes, and the
same ones as the preorder.  It follows an order of the addresses in which every node of the
tree comes once, before the nodes below it.  The search for an identity finds a node exactly
if the identity was noted, and then the first node in preorder that has it. -/
theorem ids_visit_once (node : StoredNode) :
    EndsAfter turn node.nodeCount ([], [node]) (node.ids, []) ∧
      node.ids = node.backward ∧ node.ids.length = node.nodeCount ∧
      node.ids.Perm (node.nodes.map id) ∧
      (∃ addresses, node.VisitsOnce addresses ∧
        node.ids.map some = addresses.map fun address => (node.part? address).map id) ∧
      ∀ i, ((node.find? i).isSome = true ↔ i ∈ node.ids) ∧
        ∀ found, node.find? i = some found →
          ∃ before after, node.nodes = before ++ found :: after ∧ found.id = i ∧
            ∀ earlier ∈ before, earlier.id ≠ i := by
  have hperm : node.ids.Perm (node.nodes.map id) := by
    rw [ids_eq]
    exact backward_perm node
  have hlength : node.ids.length = node.nodeCount := by
    rw [hperm.length_eq, List.length_map, length_nodes]
  refine ⟨endsAfter_ids node, ids_eq node, hlength, hperm,
    ⟨_, visitsOnce_addressed node, map_some_ids node⟩, fun i => ⟨?_, ?_⟩⟩
  · rw [find?_eq, List.find?_isSome, hperm.mem_iff, List.mem_map]
    simp
  · intro found hfound
    rw [find?_eq, List.find?_eq_some_iff_append] at hfound
    obtain ⟨hid, before, after, hnodes, hbefore⟩ := hfound
    exact ⟨before, after, hnodes, by simpa using hid, fun earlier hearlier => by
      simpa using hbefore earlier hearlier⟩

/-- A tree with one identity at two nodes, of which the walk meets the last and the search
the first. -/
theorem ids_visit_once_repeated :
    let leaf (name : String) : StoredNode := ⟨7, "b", name, "", false, "1", []⟩
    let folder : StoredNode := ⟨2, "b", "x", "", true, "0", [("y", leaf "y")]⟩
    let node : StoredNode := ⟨1, "b", "d", "", true, "0", [("x", folder), ("z", leaf "z")]⟩
    EndsAfter turn 4 ([], [node]) ([1, 7, 2, 7], []) ∧ node.find? 7 = some (leaf "y") ∧
      ∃ before after, node.nodes = before ++ leaf "y" :: after ∧ (leaf "y").id = 7 ∧
        ∀ earlier ∈ before, earlier.id ≠ 7 := by
  intro leaf folder node
  obtain ⟨hends, hids, -, -, -, hsearch⟩ := ids_visit_once node
  have hlisting : node.ids = [1, 7, 2, 7] := hids.trans rfl
  have hfound : node.find? 7 = some (leaf "y") := rfl
  rw [hlisting] at hends
  exact ⟨hends, hfound, (hsearch 7).2 _ hfound⟩

end StoredNode

end ContentPreview
