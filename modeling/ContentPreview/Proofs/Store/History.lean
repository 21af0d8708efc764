import ContentPreview.Proofs.Loop
import ContentPreview.Proofs.Store

/-!
# Histories of the store in memory

What is stored after any sequence of operations, reads included.  For one
bitstream only the operations since its last deletion count, and of these only
the non-empty lists of roots that were offered: the first was kept, and every
later one was answered with the first.  Over all bitstreams the store is a map
with non-empty values, which makes the reads that run through all of it agree
with the ones that ask for one bitstream.

The two halves are proved apart, each as a step and an induction over the
operations: `Settled` follows one bitstream through the history, `IsMap` is a
property of the memory alone.

## Main definitions

* `Operation`, `Reply` — the operations on the store, and what they answer.
* `history` — a sequence of operations with their answers.
* `offers` — what was offered for a bitstream since its last deletion.

## Main results

* `settled_history` — the first offer is kept, the later ones are refused.
* `isMap_history` — keys are distinct, values are not empty.
* `create_if_absent` — the store after any sequence of operations.
-/

namespace ContentPreview.Memory

/-! ## Operations -/

inductive Operation where
  | nextId
  | insert (b : BitstreamId) (roots : List StoredNode)
  | delete (b : BitstreamId)
  | has (b : BitstreamId)
  | roots (b : BitstreamId)
  | find (id : Nat)
  | bitstreams
  | size
  | nodeCount

inductive Reply where
  | identity (id : Nat)
  | outcome (outcome : InsertOutcome)
  | removed (count : Nat)
  | has (answer : Bool)
  | roots (roots : List StoredNode)
  | found (node? : Option StoredNode)
  | bitstreams (bs : List BitstreamId)
  | count (count : Nat)

namespace Operation

def perform : Operation → StoreM Memory Reply
  | .nextId => return .identity (← Store.nextId)
  | .insert b offered => return .outcome (← Store.insertTree b offered)
  | .delete b => return .removed (← Store.deleteTree b)
  | .has b => return .has (← Store.hasPreview b)
  | .roots b => return .roots (← Store.findRoots b)
  | .find id => return .found ((← get).findNode? id)
  | .bitstreams => return .bitstreams (← get).bitstreams
  | .size => return .count (← get).size
  | .nodeCount => return .count (← get).nodeCount

/-- The bitstream that an operation is about, if it is about one. -/
def target? : Operation → Option BitstreamId
  | .insert b _ | .delete b | .has b | .roots b => some b
  | .nextId | .find _ | .bitstreams | .size | .nodeCount => none

def deletes (b : BitstreamId) : Operation → Bool
  | .delete c => c == b
  | _ => false

/-- The roots that an operation offers for a bitstream.  An empty list is no
offer. -/
def offer? (b : BitstreamId) : Operation → Option (List StoredNode)
  | .insert c offered => if c == b && !offered.isEmpty then some offered else none
  | _ => none

/-- The memory after an operation. -/
def effect : Operation → Memory → Memory
  | .nextId, m => m.advanceBy 1
  | .insert b offered, m => m.insert b offered
  | .delete b, m => m.erase b
  | _, m => m

theorem perform_state (op : Operation) (m : Memory) :
    (op.perform.run.run m).2 = op.effect m := by
  cases op <;> rfl

theorem eq_insert_of_offer {op : Operation} {b : BitstreamId} {roots : List StoredNode}
    (h : op.offer? b = some roots) : op = insert b roots ∧ roots ≠ [] := by
  cases op with
  | insert c offered =>
      rw [offer?, Option.ite_none_right_eq_some, Bool.and_eq_true] at h
      obtain ⟨⟨hc, hne⟩, hroots⟩ := h
      have hb : c = b := by simpa using hc
      have hoffered : offered = roots := by simpa using hroots
      subst hb hoffered
      exact ⟨rfl, by simpa using hne⟩
  | _ => cases h

theorem of_target_ne (op : Operation) {b : BitstreamId} (h : op.target? ≠ some b) :
    op.deletes b = false ∧ op.offer? b = none := by
  cases op with
  | insert c offered =>
      have hc : c ≠ b := fun hc => h (congrArg some hc)
      exact ⟨rfl, by simp [offer?, hc]⟩
  | delete c =>
      have hc : c ≠ b := fun hc => h (congrArg some hc)
      exact ⟨by simp [deletes, hc], rfl⟩
  | _ => exact ⟨rfl, rfl⟩

end Operation

/-! ## What is stored for one bitstream -/

theorem insert_nil (m : Memory) (b : BitstreamId) : m.insert b [] = m := rfl

/-- What is stored after an operation: an offer counts if nothing was stored. -/
theorem lookup_effect (op : Operation) (m : Memory) (b : BitstreamId) :
    (op.effect m).trees.lookup b =
      if op.deletes b then none else (m.trees.lookup b).or (op.offer? b) := by
  cases op with
  | insert c roots =>
      show (m.insert c roots).trees.lookup b = (m.trees.lookup b).or (Operation.offer? b _)
      by_cases hne : roots = []
      · subst hne
        simp [Operation.offer?, insert_nil]
      · rw [lookup_insert hne]
        have hempty : roots.isEmpty = false := by simpa using hne
        by_cases hc : b = c
        · subst hc
          cases hfound : m.trees.lookup b <;> simp [Operation.offer?, hempty]
        · rw [if_neg hc]
          simp [Operation.offer?, Ne.symm hc]
  | delete c =>
      show (m.erase c).trees.lookup b = _
      rw [lookup_erase]
      by_cases hc : b = c
      · subst hc
        simp [Operation.deletes]
      · rw [if_neg hc]
        simp [Operation.deletes, Operation.offer?, Ne.symm hc]
  | _ => simp [Operation.effect, Operation.deletes, Operation.offer?]

theorem roots_effect_of_target_ne {op : Operation} {b : BitstreamId} (m : Memory)
    (h : op.target? ≠ some b) : (op.effect m).roots b = m.roots b := by
  obtain ⟨hkeeps, hoffer⟩ := op.of_target_ne h
  unfold roots
  rw [lookup_effect, hkeeps, hoffer, Option.or_none]
  rfl

theorem insert_run {m : Memory} {b : BitstreamId} {offered : List StoredNode}
    (hne : offered ≠ []) :
    (Operation.insert b offered).perform.run.run m =
      if m.has b then (.ok (.outcome (.alreadyPresent (m.roots b))), m)
      else (.ok (.outcome .inserted), { m with trees := m.trees ++ [(b, offered)] }) := by
  have hempty : offered.isEmpty = false := by simpa using hne
  show (Except.ok (Reply.outcome (m.insertAnswer b offered)), m.insert b offered) = _
  unfold insertAnswer insert roots has
  cases hfound : m.trees.lookup b <;> simp [hempty]

/-! ## Histories -/

/-- An operation and its answer. -/
abbrev Entry := Operation × Except StoreError Reply

/-- Performs operations one after the other. -/
def history : List Operation → StateM Memory (List Entry) := historyOf fun op => op.perform.run

theorem history_cons (op : Operation) (rest : List Operation) (m : Memory) :
    (history (op :: rest)).run m =
      ((op, (op.perform.run.run m).1) :: ((history rest).run (op.effect m)).1,
        ((history rest).run (op.effect m)).2) := by
  rw [← op.perform_state m]
  rfl

/-- The part of a history after the last deletion of a bitstream. -/
def sinceDeletion (b : BitstreamId) (past : List Entry) : List Entry :=
  (past.reverse.takeWhile fun entry => !entry.1.deletes b).reverse

/-- The lists of roots that were offered for a bitstream since its last
deletion, with the answers. -/
def offers (b : BitstreamId) (past : List Entry) :
    List (List StoredNode × Except StoreError Reply) :=
  (sinceDeletion b past).filterMap fun entry => (entry.1.offer? b).map (·, entry.2)

variable {m : Memory} {b : BitstreamId} {past : List Entry}

theorem offers_append_deletion {op : Operation} (h : op.deletes b = true)
    (answer : Except StoreError Reply) : offers b (past ++ [(op, answer)]) = [] := by
  simp [offers, sinceDeletion, h]

theorem offers_append {op : Operation} (h : op.deletes b = false)
    (answer : Except StoreError Reply) :
    offers b (past ++ [(op, answer)]) =
      offers b past ++ ((op.offer? b).map (·, answer)).toList := by
  unfold offers sinceDeletion
  rw [List.reverse_append, List.reverse_singleton, List.singleton_append,
    List.takeWhile_cons_of_pos (by simpa using h), List.reverse_cons, List.filterMap_append]
  cases hoffer : op.offer? b <;> simp [hoffer]

/-- What is kept of a list of offers, and how they were answered. -/
def Settled (kept? : Option (List StoredNode)) :
    List (List StoredNode × Except StoreError Reply) → Prop
  | [] => kept? = none
  | (first, answer) :: later =>
    kept? = some first ∧ first ≠ [] ∧ answer = .ok (.outcome .inserted) ∧
      ∀ offer ∈ later, offer.2 = .ok (.outcome (.alreadyPresent first))

/-- One more offer is kept if it is the first, and answered with the first
otherwise. -/
theorem Settled.offer {known : List (List StoredNode × Except StoreError Reply)}
    {roots : List StoredNode} (h : Settled (m.trees.lookup b) known) (hne : roots ≠ []) :
    Settled ((m.trees.lookup b).or (some roots))
      (known ++ [(roots, .ok (.outcome (m.insertAnswer b roots)))]) := by
  have hempty : roots.isEmpty = false := by simpa using hne
  cases known with
  | nil =>
      have hfree : m.trees.lookup b = none := h
      have hanswer : m.insertAnswer b roots = .inserted := by simp [insertAnswer, hfree]
      rw [hfree, hanswer]
      exact ⟨rfl, hne, rfl, by simp⟩
  | cons offer later =>
      obtain ⟨first, answer⟩ := offer
      obtain ⟨hkept, hfirst, hinserted, hlater⟩ := h
      have hanswer : m.insertAnswer b roots = .alreadyPresent first := by
        simp [insertAnswer, hempty, hkept]
      rw [hkept, hanswer]
      refine ⟨rfl, hfirst, hinserted, ?_⟩
      intro offer hoffer
      rcases List.mem_append.1 hoffer with hold | hnew
      · exact hlater offer hold
      · rw [List.mem_singleton.1 hnew]

theorem Settled.step (h : Settled (m.trees.lookup b) (offers b past)) (op : Operation) :
    Settled ((op.effect m).trees.lookup b)
      (offers b (past ++ [(op, (op.perform.run.run m).1)])) := by
  rw [lookup_effect]
  by_cases hdelete : op.deletes b = true
  · rw [offers_append_deletion hdelete, if_pos hdelete]
    exact rfl
  · rw [if_neg hdelete, offers_append (by simpa using hdelete)]
    cases hoffer : op.offer? b with
    | none => simpa using h
    | some roots =>
        obtain ⟨rfl, hne⟩ := Operation.eq_insert_of_offer hoffer
        exact h.offer hne

theorem settled_history (ops : List Operation)
    (h : Settled (m.trees.lookup b) (offers b past)) :
    Settled (((history ops).run m).2.trees.lookup b)
      (offers b (past ++ ((history ops).run m).1)) := by
  induction ops generalizing m past with
  | nil =>
      show Settled _ (offers b (past ++ []))
      rwa [List.append_nil]
  | cons op rest ih =>
      have hstep := ih (h.step op)
      rw [List.append_assoc] at hstep
      rw [history_cons]
      exact hstep

/-! ## The store as a map -/

/-- Every bitstream has at most one entry, and no entry is empty. -/
structure IsMap (m : Memory) : Prop where
  keys : (m.trees.map Prod.fst).Nodup
  values : ∀ entry ∈ m.trees, entry.2 ≠ []

theorem has_iff_mem_keys : m.has b = true ↔ b ∈ m.trees.map Prod.fst := by
  unfold has
  rw [List.lookup_isSome_iff]
  simp

theorem IsMap.insert (h : m.IsMap) (b : BitstreamId) (roots : List StoredNode) :
    (m.insert b roots).IsMap := by
  unfold Memory.insert
  split
  case isTrue => exact h
  case isFalse hnew =>
    rw [Bool.or_eq_true, not_or, has_iff_mem_keys] at hnew
    obtain ⟨hne, hfree⟩ := hnew
    constructor
    · rw [List.map_append, List.nodup_append]
      refine ⟨h.keys, by simp, ?_⟩
      intro c hc d hd
      have hdb : d = b := by simpa using hd
      rintro rfl
      exact hfree (hdb ▸ hc)
    · intro entry hentry
      rcases List.mem_append.1 hentry with hold | hlast
      · exact h.values entry hold
      · rw [List.mem_singleton.1 hlast]
        simpa using hne

theorem IsMap.erase (h : m.IsMap) (b : BitstreamId) : (m.erase b).IsMap where
  keys := h.keys.sublist (List.filter_sublist.map _)
  values := fun entry hentry => h.values entry (List.mem_filter.1 hentry).1

theorem IsMap.advanceBy (h : m.IsMap) (k : Nat) : (m.advanceBy k).IsMap := ⟨h.keys, h.values⟩

theorem IsMap.effect (h : m.IsMap) (op : Operation) : (op.effect m).IsMap := by
  cases op with
  | insert b roots => exact h.insert b roots
  | delete b => exact h.erase b
  | nextId => exact h.advanceBy 1
  | _ => exact h

theorem isMap_history (ops : List Operation) (h : m.IsMap) :
    ((history ops).run m).2.IsMap := by
  refine historyOf_keeps (fun op m hm => ?_) ops h
  rw [op.perform_state m]
  exact hm.effect op

/-! ## Reads of the whole store -/

theorem mem_bitstreams : b ∈ m.bitstreams ↔ m.has b = true := by
  unfold bitstreams
  rw [List.mem_mergeSort, has_iff_mem_keys]

theorem length_bitstreams (m : Memory) : m.bitstreams.length = m.size := by
  unfold bitstreams size
  rw [List.length_mergeSort, List.length_map]

theorem IsMap.has_iff (h : m.IsMap) : m.has b = true ↔ m.roots b ≠ [] := by
  unfold has roots
  cases hfound : m.trees.lookup b with
  | none => simp
  | some kept =>
      have hkept : kept ≠ [] := h.values (b, kept) (Keyed.mem_of_lookup hfound)
      simpa using hkept

theorem IsMap.roots_of_mem (h : m.IsMap) {kept : List StoredNode}
    (hentry : (b, kept) ∈ m.trees) : m.roots b = kept := by
  unfold roots
  rw [Keyed.lookup_of_mem h.keys hentry, Option.getD_some]

theorem IsMap.pairwise_bitstreams (h : m.IsMap) : m.bitstreams.Pairwise (· < ·) := by
  have hsorted : m.bitstreams.Pairwise fun a b => precedes a b = true := by
    refine List.pairwise_mergeSort ?_ ?_ _
    · intro a b c hab hbc
      have hle : a ≤ c := String.le_trans (by simpa [precedes] using hab)
        (by simpa [precedes] using hbc)
      simpa [precedes] using hle
    · intro a b
      simpa [precedes] using String.le_total a b
  have hdistinct : m.bitstreams.Pairwise (· ≠ ·) :=
    (List.mergeSort_perm _ _).nodup_iff.2 h.keys
  refine hsorted.imp₂ ?_ hdistinct
  intro a b hle hne
  exact Std.lt_of_le_of_ne (by simpa [precedes] using hle) hne

theorem IsMap.nodeCount_eq (h : m.IsMap) :
    m.nodeCount =
      m.bitstreams.foldr (fun b sum => StoredNode.totalNodes (m.roots b) + sum) 0 := by
  have hentries : m.trees.map (fun entry => (entry.1, m.roots entry.1)) = m.trees := by
    refine (List.map_congr_left ?_).trans (List.map_id m.trees)
    intro entry hentry
    rw [h.roots_of_mem hentry]
    rfl
  have hperm : (m.trees.map Prod.fst).Perm m.bitstreams := (List.mergeSort_perm _ _).symm
  calc m.nodeCount
      = (m.trees.map fun entry => (entry.1, m.roots entry.1)).foldr
          (fun entry sum => StoredNode.totalNodes entry.2 + sum) 0 := by rw [hentries]; rfl
    _ = (m.trees.map Prod.fst).foldr
          (fun b sum => StoredNode.totalNodes (m.roots b) + sum) 0 := by
        rw [List.foldr_map, List.foldr_map]
    _ = m.bitstreams.foldr (fun b sum => StoredNode.totalNodes (m.roots b) + sum) 0 :=
        hperm.foldr_eq' (by intros; apply Nat.add_left_comm) 0

/-! ## The store after any history -/

/-- **The store creates if absent.**  After any operations on a fresh store:
what is kept for a bitstream is the first non-empty list of roots offered since
its last deletion, the only offer since then that was answered as inserted, and
each later one was answered with that list.  The next offer is accepted exactly
if nothing is kept, and changes nothing otherwise; an empty list is never kept.
The four reads agree, and operations on one bitstream leave the others alone. -/
theorem create_if_absent (ops : List Operation) (b : BitstreamId) :
    let past := ((history ops).run {}).1
    let m := ((history ops).run {}).2
    (match offers b past with
      | [] => m.roots b = []
      | (first, answer) :: later =>
        m.roots b = first ∧ first ≠ [] ∧ answer = .ok (.outcome .inserted) ∧
          ∀ offer ∈ later, offer.2 = .ok (.outcome (.alreadyPresent first))) ∧
      (Operation.insert b []).perform.run.run m = (.ok (.outcome .inserted), m) ∧
      (∀ roots ≠ [], (Operation.insert b roots).perform.run.run m =
        if m.has b then (.ok (.outcome (.alreadyPresent (m.roots b))), m)
        else (.ok (.outcome .inserted), { m with trees := m.trees ++ [(b, roots)] })) ∧
      (Operation.roots b).perform.run.run m = (.ok (.roots (m.roots b)), m) ∧
      (Operation.has b).perform.run.run m = (.ok (.has (m.has b)), m) ∧
      (m.has b = true ↔ m.roots b ≠ []) ∧
      (b ∈ m.bitstreams ↔ m.roots b ≠ []) ∧
      m.bitstreams.Pairwise (· < ·) ∧
      m.bitstreams.length = m.size ∧
      m.nodeCount =
        m.bitstreams.foldr (fun c sum => StoredNode.totalNodes (m.roots c) + sum) 0 ∧
      ∀ op : Operation, op.target? ≠ some b → (op.perform.run.run m).2.roots b = m.roots b := by
  intro past m
  have hmap : m.IsMap := isMap_history ops ⟨List.nodup_nil, by simp⟩
  have hstart : Settled (({} : Memory).trees.lookup b) (offers b []) := rfl
  have hsettled : Settled (m.trees.lookup b) (offers b past) := settled_history ops hstart
  refine ⟨?_, rfl, ?_, rfl, rfl, hmap.has_iff, ?_, hmap.pairwise_bitstreams,
    length_bitstreams m, hmap.nodeCount_eq, ?_⟩
  · cases hoffers : offers b past with
    | nil =>
        rw [hoffers] at hsettled
        have hfree : m.trees.lookup b = none := hsettled
        simp [roots, hfree]
    | cons offer later =>
        rw [hoffers] at hsettled
        obtain ⟨hkept, hrest⟩ := hsettled
        exact ⟨by simp [roots, hkept], hrest⟩
  · intro roots hne
    exact insert_run hne
  · exact mem_bitstreams.trans hmap.has_iff
  · intro op htarget
    rw [op.perform_state]
    exact roots_effect_of_target_ne m htarget

theorem create_if_absent_stored_anew :
    let old : List StoredNode := [⟨1, "b", "old", "", false, "0", []⟩]
    let new : List StoredNode := [⟨2, "b", "new", "", false, "0", []⟩]
    let m := ((history [.insert "b" old, .delete "b", .insert "b" [], .insert "b" new,
      .insert "a" old, .insert "b" old]).run {}).2
    m.roots "b" = new ∧ "b" ∈ m.bitstreams ∧
      (Operation.insert "b" old).perform.run.run m =
        (.ok (.outcome (.alreadyPresent new)), m) ∧
      ((Operation.delete "a").perform.run.run m).2.roots "b" = new := by
  intro old new m
  obtain ⟨⟨hroots, -⟩, -, hnext, -, -, -, hmem, -, -, -, hframe⟩ :=
    create_if_absent [.insert "b" old, .delete "b", .insert "b" [], .insert "b" new,
      .insert "a" old, .insert "b" old] "b"
  refine ⟨hroots, hmem.2 (by simp [hroots, new]), hnext old (by simp [old]), ?_⟩
  exact (hframe (.delete "a") (by decide)).trans hroots

end ContentPreview.Memory
