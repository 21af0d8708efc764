import ContentPreview.Proofs.Tree.Placement

/-!
# The order of siblings

Nothing in a tree says when a node came to it.  Siblings nevertheless stand in the order
in which the listing first mentions their places, be it by a record of their own or by
one below them.  A node keeps its position through all that happens to it later: it may
be given again, become a directory by a record of its own, or become one because
something is below it.

The names below a place are the only thing that has to be watched.  A record adds at
most one name to them, at the end, and only if it is the first to mention it
(`namesBelow_place`).  So the names remain those that were mentioned, in the order of
their first mentions (`FirstSeen.insert`).

## Main definitions

* `Forest.namesBelow` — the names of siblings, in their order.
* `firstMention` — how many records of a listing stand in front of the first one that is
  at a place or below it.
* `InFirstSeenOrder` — siblings in the order of the first mentions of their places.

## Main results

* `Forest.namesBelow_place` — what one record does to the names below a place.
* `siblings_in_first_seen_order` — the siblings of the tree of a listing.
-/

namespace ContentPreview

/-! ## One record among siblings -/

namespace Forest

/-- The nodes below the node under a key. -/
def childrenAt (key : String) (level : Forest) : Forest :=
  ((level.lookup key).map View.children).getD []

/-- The names of the nodes below a place in their order; below no place at all, those of
the roots. -/
def namesBelow : List String → Forest → List String
  | [], level => level.map Prod.fst
  | key :: rest, level => namesBelow rest (childrenAt key level)

theorem namesBelow_nil (p : List String) : namesBelow p [] = [] := by
  induction p with
  | nil => rfl
  | cons key rest ih => exact ih

theorem namesBelow_of_follow {p : List String} {level : Forest} {v : View}
    (h : level.follow? p = some v) : level.namesBelow p = v.children.map Prod.fst := by
  induction p generalizing level with
  | nil => cases h
  | cons key rest ih =>
      cases rest with
      | nil =>
          have hlookup : level.lookup key = some v := h
          unfold namesBelow childrenAt
          rw [hlookup]
          rfl
      | cons next rest =>
          rw [follow?_cons_cons] at h
          exact ih h

/-- Below a node on its way a record is placed by the rest of its components, and nowhere
else. -/
theorem childrenAt_place (r : Record) (key c : String) (cs : List String) (level : Forest) :
    childrenAt key (place r (c :: cs) level) =
      if key = c then place r cs (childrenAt key level) else childrenAt key level := by
  unfold childrenAt
  cases cs with
  | nil =>
      have hplace : place r [c] level = Keyed.alter c (settle c r) level := rfl
      rw [hplace, Keyed.lookup_alter]
      by_cases hkey : key = c
      · subst hkey
        rw [if_pos rfl, if_pos rfl, Option.map_some, Option.getD_some, children_settle]
        rfl
      · rw [if_neg hkey, if_neg hkey]
  | cons next rest =>
      rw [place_cons_cons, Keyed.lookup_alter]
      by_cases hkey : key = c
      · subst hkey
        rw [if_pos rfl, if_pos rfl, Option.map_some, Option.getD_some, children_descend]
      · rw [if_neg hkey, if_neg hkey]

/-- A record that goes on below a place adds the name by which it does, at the end and
unless it is there.  Any other record leaves the names below the place alone. -/
theorem namesBelow_place (r : Record) (p cs : List String) (level : Forest) :
    (∃ name, p ++ [name] <+: cs ∧
        namesBelow p (place r cs level) =
          if name ∈ namesBelow p level then namesBelow p level
          else namesBelow p level ++ [name]) ∨
      (∀ name, ¬ p ++ [name] <+: cs) ∧
        namesBelow p (place r cs level) = namesBelow p level := by
  induction p generalizing cs level with
  | nil =>
      cases cs with
      | nil => exact Or.inr ⟨by simp, rfl⟩
      | cons c cs =>
          refine Or.inl ⟨c, by simp, ?_⟩
          cases cs with
          | nil => exact Keyed.map_fst_alter c _ level
          | cons next rest => exact Keyed.map_fst_alter c _ level
  | cons key p ih =>
      cases cs with
      | nil => exact Or.inr ⟨by simp, rfl⟩
      | cons c cs =>
          unfold namesBelow
          rw [childrenAt_place]
          by_cases hkey : key = c
          · subst hkey
            simp only [List.cons_append, List.cons_prefix_cons, true_and, if_true]
            exact ih cs (childrenAt key level)
          · rw [if_neg hkey]
            exact Or.inr ⟨by simp [hkey], rfl⟩

end Forest

/-! ## First mentions -/

/-- The number of records of a listing in front of the first one that is at a place or
below it. -/
def firstMention (records : List Record) (p : List String) : Nat :=
  records.findIdx fun r => decide (p <+: Path.components r.path)

section Mention

variable {done : List Record} {p : List String}

theorem firstMention_lt_iff : firstMention done p < done.length ↔ Mentions done p := by
  unfold firstMention Mentions
  rw [List.findIdx_lt_length]
  simp

theorem firstMention_append_of_mentions (h : Mentions done p) (r : Record) :
    firstMention (done ++ [r]) p = firstMention done p := by
  have hfound := firstMention_lt_iff.2 h
  unfold firstMention at hfound ⊢
  rw [List.findIdx_append, if_pos hfound]

theorem firstMention_append_of_not_mentions (h : ¬ Mentions done p) {r : Record}
    (hr : p <+: Path.components r.path) : firstMention (done ++ [r]) p = done.length := by
  have hnone : ¬ firstMention done p < done.length := fun hlt => h (firstMention_lt_iff.1 hlt)
  unfold firstMention at hnone ⊢
  rw [List.findIdx_append, if_neg hnone, List.findIdx_cons]
  simp [hr]

end Mention

/-- The names are those that a listing mentions below a place, in the order of their first
mentions. -/
structure FirstSeen (records : List Record) (p names : List String) : Prop where
  mem_iff : ∀ name, name ∈ names ↔ Mentions records (p ++ [name])
  ordered : names.Pairwise fun a b =>
    firstMention records (p ++ [a]) < firstMention records (p ++ [b])

namespace FirstSeen

variable {done : List Record} {p names : List String}

/-- A later record does not change the order of names that were mentioned. -/
theorem ordered_append (h : FirstSeen done p names) (r : Record) :
    names.Pairwise fun a b =>
      firstMention (done ++ [r]) (p ++ [a]) < firstMention (done ++ [r]) (p ++ [b]) := by
  refine h.ordered.imp_of_mem fun {a b} ha hb hlt => ?_
  rw [firstMention_append_of_mentions ((h.mem_iff a).1 ha),
    firstMention_append_of_mentions ((h.mem_iff b).1 hb)]
  exact hlt

/-- A record that does not go on below the place. -/
theorem elsewhere (h : FirstSeen done p names) {r : Record}
    (hr : ∀ name, ¬ p ++ [name] <+: Path.components r.path) :
    FirstSeen (done ++ [r]) p names := by
  refine ⟨fun name => ?_, h.ordered_append r⟩
  rw [mentions_append, h.mem_iff]
  simp [hr name]

/-- A record that goes on below the place by a name. -/
theorem below (h : FirstSeen done p names) {r : Record} {name : String}
    (hr : p ++ [name] <+: Path.components r.path) :
    FirstSeen (done ++ [r]) p (if name ∈ names then names else names ++ [name]) := by
  have honly (other : String) : p ++ [other] <+: Path.components r.path ↔ other = name := by
    constructor
    · intro hother
      have hprefix := List.prefix_of_prefix_length_le hother hr (by simp)
      simpa using hprefix.eq_of_length (by simp)
    · rintro rfl
      exact hr
  by_cases hmem : name ∈ names
  · rw [if_pos hmem]
    refine ⟨fun other => ?_, h.ordered_append r⟩
    rw [mentions_append, ← h.mem_iff, honly]
    constructor
    · exact Or.inl
    · rintro (hother | rfl)
      · exact hother
      · exact hmem
  · rw [if_neg hmem]
    have hnew : ¬ Mentions done (p ++ [name]) :=
      fun hmentions => hmem ((h.mem_iff name).2 hmentions)
    refine ⟨fun other => ?_, ?_⟩
    · rw [mentions_append, ← h.mem_iff, honly, List.mem_append, List.mem_singleton]
    · refine List.pairwise_append.2 ⟨h.ordered_append r, List.pairwise_singleton _ _, ?_⟩
      intro other hother last hlast
      obtain rfl := List.mem_singleton.1 hlast
      have hmentions := (h.mem_iff other).1 hother
      rw [firstMention_append_of_mentions hmentions, firstMention_append_of_not_mentions hnew hr]
      exact firstMention_lt_iff.2 hmentions

/-- The names below a place are in the order of their first mentions after one more
record. -/
theorem insert {level : Forest} (h : FirstSeen done p (level.namesBelow p)) (r : Record) :
    FirstSeen (done ++ [r]) p ((level.insert r).namesBelow p) := by
  unfold Forest.insert
  rcases Forest.namesBelow_place r p (Path.components r.path) level with
    ⟨name, hr, hnames⟩ | ⟨hr, hnames⟩
  · rw [hnames]
    exact h.below hr
  · rw [hnames]
    exact h.elsewhere hr

end FirstSeen

/-! ## The whole listing -/

/-- The names below any place of the tree of a listing are in the order of their first
mentions. -/
theorem firstSeen_materializeForest (records : List Record) (p : List String) :
    FirstSeen records p ((materializeForest records).namesBelow p) := by
  induction records using List.reverseRecOn with
  | nil =>
      change FirstSeen [] p (Forest.namesBelow p [])
      rw [Forest.namesBelow_nil]
      exact ⟨by simp [Mentions], List.Pairwise.nil⟩
  | append_singleton done r ih =>
      rw [materializeForest_append_singleton]
      exact ih.insert r

/-- Siblings below a place have the names that a listing mentions there, and stand in the
order in which it first mentions their places. -/
structure InFirstSeenOrder (records : List Record) (p : List String) (siblings : List View) :
    Prop where
  mem_iff : ∀ name, name ∈ siblings.map View.name ↔
    firstMention records (p ++ [name]) < records.length
  before_iff : ∀ i j (hi : i < siblings.length) (hj : j < siblings.length),
    i < j ↔ firstMention records (p ++ [siblings[i].name]) <
      firstMention records (p ++ [siblings[j].name])

theorem FirstSeen.inFirstSeenOrder {records : List Record} {p : List String}
    {siblings : List View} (h : FirstSeen records p (siblings.map View.name)) :
    InFirstSeenOrder records p siblings := by
  have hordered (i j : Nat) (hi : i < siblings.length) (hj : j < siblings.length) (hlt : i < j) :
      firstMention records (p ++ [siblings[i].name]) <
        firstMention records (p ++ [siblings[j].name]) := by
    have hpair := List.pairwise_iff_getElem.1 h.ordered i j (by simpa using hi)
      (by simpa using hj) hlt
    simpa using hpair
  refine ⟨fun name => ?_, fun i j hi hj => ⟨hordered i j hi hj, fun hlt => ?_⟩⟩
  · rw [h.mem_iff, firstMention_lt_iff]
  · rcases Nat.lt_trichotomy i j with hbefore | rfl | hafter
    · exact hbefore
    · omega
    · have hreverse := hordered j i hj hi hafter
      omega

/-- **Siblings stand in the order in which the listing first mentions them.**  This holds
of the roots and of the children of every node: they are the names that the listing
mentions below the place, and of two of them the one comes first that is at, or above,
the place of the earlier record, whatever later records did to either. -/
theorem siblings_in_first_seen_order (records : List Record) :
    InFirstSeenOrder records [] (materialize records) ∧
      ∀ p v, (Forest.ofRoots (materialize records)).follow? p = some v →
        InFirstSeenOrder records p (v.children.map Prod.snd) := by
  have hcanonical := canonical_materializeForest records
  constructor
  · refine FirstSeen.inFirstSeenOrder ?_
    unfold materialize
    rw [hcanonical.map_name]
    exact firstSeen_materializeForest records []
  · intro p v hv
    rw [ofRoots_materialize] at hv
    have hp : p ≠ [] := by
      rintro rfl
      cases hv
    obtain ⟨-, hchildren⟩ := (hcanonical.follow? hp hv).1.promoted
    refine FirstSeen.inFirstSeenOrder ?_
    rw [hchildren.map_name, ← Forest.namesBelow_of_follow hv]
    exact firstSeen_materializeForest records p

/-- Among the roots, a parent that is a directory of its own only later and a file that
becomes one; below the second root, a directory that is there before its own record. -/
theorem siblings_in_first_seen_order_late :
    let records := [Record.file "c/x" 1, Record.directory "a", Record.file "b" 2,
      Record.file "a/q/1" 3, Record.file "b/k" 4, Record.file "a/p" 5, Record.directory "c",
      Record.directory "a/q"]
    (materialize records).map View.name = ["c", "a", "b"] ∧
      firstMention records ["c"] < firstMention records ["b"] ∧
      ∃ v, (Forest.ofRoots (materialize records)).follow? ["a"] = some v ∧
        v.children.map Prod.fst = ["q", "p"] ∧
        firstMention records ["a", "q"] < firstMention records ["a", "p"] := by
  intro records
  obtain ⟨hroots, hchildren⟩ := siblings_in_first_seen_order records
  have hfollow : (Forest.ofRoots (materialize records)).follow? ["a"] = some ⟨"a", "", 0, true,
      [("q", ⟨"q", "", 0, true, [("1", View.file "1" 3)]⟩), ("p", View.file "p" 5)]⟩ := by rfl
  refine ⟨by rfl, ?_, _, hfollow, rfl, ?_⟩
  · exact (hroots.before_iff 0 2 (by decide) (by decide)).1 (by decide)
  · exact ((hchildren ["a"] _ hfollow).before_iff 0 1 (by decide) (by decide)).1 (by decide)

end ContentPreview
