import ContentPreview.Proofs.Bounds
import ContentPreview.Proofs.Tree.Placement

/-!
# The tree of a limited listing

The bound of a preview counts records, and what is promised is about the tree.  One
record adds at most one leaf to a canonical tree, and none if it is a directory: it
may put a file at a new place, it may find something there, and it may turn a file
into a directory, which takes a leaf away.  So a tree has no more leaves than its
listing has files (`leafCountAll_insert_le` is the step).

What stands at a place depends on the records that mention it
(`described_materializeForest`), and a limited listing mentions nothing that the
whole one does not, its last record aside.  A file of the limited tree may be a
directory of the whole one, when all that is below it was left out; the converse
does not happen.

## Main results

* `totalLeaves_materialize_le` — the leaves of a tree and the files of its listing.
* `limited_tree_is_part` — the limited tree is a bounded part of the whole one.
-/

namespace ContentPreview

/-! ## Counting leaves -/

namespace View

theorem leafCountAll_append (xs ys : Forest) :
    leafCountAll (xs ++ ys) = leafCountAll xs + leafCountAll ys := by
  induction xs with
  | nil => exact (Nat.zero_add _).symm
  | cons entry xs ih =>
      obtain ⟨key, v⟩ := entry
      rw [List.cons_append, leafCountAll, leafCountAll, ih, Nat.add_assoc]

theorem leafCountAll_singleton (key : String) (v : View) :
    leafCountAll [(key, v)] = v.leafCount := by
  rw [leafCountAll, leafCountAll, Nat.add_zero]

theorem totalLeaves_map_snd (level : Forest) :
    totalLeaves (level.map Prod.snd) = leafCountAll level := by
  induction level with
  | nil => rfl
  | cons entry rest ih =>
      obtain ⟨key, v⟩ := entry
      rw [leafCountAll, ← ih]
      rfl

/-- A canonical node has at least the leaves of its children: a file has no children. -/
theorem Canonical.leafCountAll_children_le {v : View} (h : v.Canonical) :
    leafCountAll v.children ≤ v.leafCount := by
  cases h with
  | file name size hname => exact Nat.zero_le _
  | directory name children hname hnodup hkeys hchildren => exact Nat.le_refl _

theorem Canonical.leafCount_promoted {v : View} (h : v.Canonical) :
    v.promoted.leafCount = leafCountAll v.children := by
  rw [h.promoted.1, leafCount, if_pos rfl]

end View

/-! ## One record -/

namespace Forest

variable {level : Forest}

/-- A change under one key that adds at most `k` leaves there adds at most `k` leaves. -/
theorem leafCountAll_alter_le {key : String} {change : Option View → View} {k : Nat}
    (hnone : (change none).leafCount ≤ k)
    (hsome : ∀ v, (key, v) ∈ level → (change (some v)).leafCount ≤ v.leafCount + k) :
    View.leafCountAll (Keyed.alter key change level) ≤ View.leafCountAll level + k := by
  by_cases hmem : key ∈ level.map Prod.fst
  · obtain ⟨front, v, rest, rfl, hnot⟩ := Keyed.exists_split hmem
    have hv := hsome v (by simp)
    rw [Keyed.alter_append_cons hnot, View.leafCountAll_append, View.leafCountAll_append,
      View.leafCountAll, View.leafCountAll]
    omega
  · rw [Keyed.alter_of_not_mem hmem, View.leafCountAll_append, View.leafCountAll_singleton]
    omega

theorem leafCount_settle_none (name : String) (r : Record) :
    (settle name r none).leafCount = leafTotal [r] := by
  simp only [settle]
  by_cases hdir : r.isDirectory = true
  · rw [if_pos hdir, leafTotal_of_isDirectory hdir]
    rfl
  · rw [if_neg hdir, leafTotal_of_isFile (by simpa using hdir)]
    rfl

theorem leafCount_settle_some_le (name : String) (r : Record) {v : View} (h : v.Canonical) :
    (settle name r (some v)).leafCount ≤ v.leafCount := by
  simp only [settle]
  by_cases hdir : r.isDirectory = true
  · rw [if_pos hdir, h.leafCount_promoted]
    exact h.leafCountAll_children_le
  · rw [if_neg hdir]
    cases h with
    | file name size hname => exact Nat.le_refl _
    | directory name children hname hnodup hkeys hchildren => exact Nat.le_refl _

/-- A record adds no leaf but its own. -/
theorem leafCountAll_place_le (r : Record) (cs : List String) (h : level.Canonical) :
    View.leafCountAll (place r cs level) ≤ View.leafCountAll level + leafTotal [r] := by
  induction cs generalizing level with
  | nil => exact Nat.le_add_right _ _
  | cons c cs ih =>
      cases cs with
      | nil =>
          refine leafCountAll_alter_le (Nat.le_of_eq (leafCount_settle_none c r)) fun v hv => ?_
          have hcanonical : v.Canonical := h.nodes _ hv
          have hsettled := leafCount_settle_some_le c r hcanonical
          omega
      | cons next rest =>
          rw [place_cons_cons]
          refine leafCountAll_alter_le ?_ fun v hv => ?_
          · have hbelow := ih Canonical.nil
            have hnone : View.leafCountAll [] = 0 := rfl
            change View.leafCountAll (place r (next :: rest) []) ≤ leafTotal [r]
            omega
          · have hcanonical : v.Canonical := h.nodes _ hv
            obtain ⟨hpromoted, hforest⟩ := hcanonical.promoted
            have hbelow := ih hforest
            have hchildren := hcanonical.leafCountAll_children_le
            have hnode : (descend c (place r (next :: rest)) (some v)).leafCount =
                View.leafCountAll (place r (next :: rest) v.children) := by
              unfold descend
              rw [Option.getD_some, hpromoted]
              rfl
            omega

theorem leafCountAll_insert_le (h : level.Canonical) (r : Record) :
    View.leafCountAll (level.insert r) ≤ View.leafCountAll level + leafTotal [r] :=
  leafCountAll_place_le r (Path.components r.path) h

end Forest

/-! ## The whole listing -/

/-- **A tree has no more leaves than its listing has files.** -/
theorem totalLeaves_materialize_le (records : List Record) :
    View.totalLeaves (materialize records) ≤ leafTotal records := by
  unfold materialize
  rw [View.totalLeaves_map_snd]
  induction records using List.reverseRecOn with
  | nil => exact Nat.le_refl 0
  | append_singleton done r ih =>
      have hstep := Forest.leafCountAll_insert_le (canonical_materializeForest done) r
      rw [materializeForest_append_singleton, leafTotal_append]
      omega

section Parts

variable {records kept : List Record} {p : List String}

theorem Mentions.mono (hsub : ∀ r ∈ kept, p <+: Path.components r.path → r ∈ records)
    (h : Mentions kept p) : Mentions records p := by
  obtain ⟨r, hr, hpre⟩ := h
  exact ⟨r, hsub r hr hpre, hpre⟩

theorem MakesDirectory.mono (hsub : ∀ r ∈ kept, p <+: Path.components r.path → r ∈ records)
    (h : MakesDirectory kept p) : MakesDirectory records p := by
  rcases h with ⟨r, hr, hpre, hne⟩ | ⟨r, hr, hdir, rfl⟩
  · exact Or.inl ⟨r, hsub r hr hpre, hpre, hne⟩
  · exact Or.inr ⟨r, hsub r hr (List.prefix_refl _), hdir, rfl⟩

/-- Where all records of one listing that mention a place are records of another, what
the first puts there the second does too, and a directory stays one. -/
theorem follow?_materializeForest_mono (hp : p ≠ [])
    (hsub : ∀ r ∈ kept, p <+: Path.components r.path → r ∈ records) {v : View}
    (hv : (materializeForest kept).follow? p = some v) :
    ∃ w, (materializeForest records).follow? p = some w ∧
      (v.isDirectory = true → w.isDirectory = true) := by
  have hkept := described_materializeForest kept hp
  have hall := described_materializeForest records hp
  rw [hv] at hkept
  obtain ⟨hmentions, hkind, -⟩ := hkept
  cases hw : (materializeForest records).follow? p with
  | none =>
      rw [hw] at hall
      exact absurd (hmentions.mono hsub) hall
  | some w =>
      rw [hw] at hall
      exact ⟨w, rfl, fun hdir => hall.2.1.2 ((hkind.1 hdir).mono hsub)⟩

/-- A directory of a listing stands at its place. -/
theorem follow?_materializeForest_directory {r : Record} (hr : r ∈ records)
    (hdir : r.isDirectory = true) (hne : Path.components r.path ≠ []) :
    ∃ v, (materializeForest records).follow? (Path.components r.path) = some v ∧
      v.isDirectory = true := by
  have hdescribed := described_materializeForest records hne
  have hmakes : MakesDirectory records (Path.components r.path) := Or.inr ⟨r, hr, hdir, rfl⟩
  cases hv : (materializeForest records).follow? (Path.components r.path) with
  | none =>
      rw [hv] at hdescribed
      exact absurd hmakes.mentions hdescribed
  | some v =>
      rw [hv] at hdescribed
      exact ⟨v, rfl, hdescribed.2.1.2 hmakes⟩

end Parts

/-! ## The limited listing -/

theorem components_tooManyFiles :
    Path.components Record.tooManyFiles.path = [Record.tooManyFilesPath] := by decide

/-- The record that stands for files left out mentions its own place only. -/
theorem mem_of_mem_limitLeaves {max : Nat} {records : List Record} {p : List String}
    (hp : p ≠ []) (hroot : p ≠ [Record.tooManyFilesPath]) {r : Record}
    (hr : r ∈ limitLeaves max records) (hpre : p <+: Path.components r.path) : r ∈ records := by
  rcases mem_limitLeaves hr with hmem | rfl
  · exact hmem
  · rw [components_tooManyFiles, List.prefix_cons_iff] at hpre
    rcases hpre with rfl | ⟨t, rfl, ht⟩
    · exact absurd rfl hp
    · rw [List.prefix_nil.1 ht] at hroot
      exact absurd rfl hroot

/-- **The tree of a limited listing is a bounded part of the whole tree.**  It has at
most `max + 1` leaves; if there are no more than `max` files it is the whole tree, with
at most `max` leaves.  Every place that is taken in it is taken in the whole tree, the
place of the record for files left out aside, and a directory of it is a directory
there.  Every directory of the listing that has a place is a directory in both. -/
theorem limited_tree_is_part (max : Nat) (records : List Record) :
    let limited := materialize (limitLeaves max records)
    let whole := materialize records
    View.totalLeaves limited ≤ max + 1 ∧
      (leafTotal records ≤ max → View.totalLeaves limited ≤ max ∧ limited = whole) ∧
      (∀ p v, p ≠ [Record.tooManyFilesPath] → (Forest.ofRoots limited).follow? p = some v →
        ∃ w, (Forest.ofRoots whole).follow? p = some w ∧
          (v.isDirectory = true → w.isDirectory = true)) ∧
      ∀ r ∈ records, r.isDirectory = true → Path.components r.path ≠ [] →
        (∃ v, (Forest.ofRoots limited).follow? (Path.components r.path) = some v ∧
          v.isDirectory = true) ∧
        ∃ w, (Forest.ofRoots whole).follow? (Path.components r.path) = some w ∧
          w.isDirectory = true := by
  intro limited whole
  have hleaves := totalLeaves_materialize_le (limitLeaves max records)
  refine ⟨?_, ?_, ?_, ?_⟩
  · exact Nat.le_trans hleaves (leafTotal_limitLeaves_le max records)
  · intro hle
    have hsame := limitLeaves_of_le hle
    rw [hsame] at hleaves
    have hwhole : limited = whole := congrArg materialize hsame
    refine ⟨?_, hwhole⟩
    rw [hwhole]
    exact Nat.le_trans hleaves hle
  · intro p v hroot hv
    have hp : p ≠ [] := by
      rintro rfl
      cases hv
    rw [ofRoots_materialize] at hv ⊢
    exact follow?_materializeForest_mono hp (fun r => mem_of_mem_limitLeaves hp hroot) hv
  · intro r hr hdir hne
    rw [ofRoots_materialize, ofRoots_materialize]
    have hkept := mem_limitLeaves_of_isDirectory hr hdir max
    exact ⟨follow?_materializeForest_directory hkept hdir hne,
      follow?_materializeForest_directory hr hdir hne⟩

/-- A file that the listing makes a directory only behind the bound, and a member under
the name of the record for files left out. -/
theorem limited_tree_is_part_behind_bound :
    let records := [Record.file "a" 3, Record.directory "d/", Record.file "a/b" 4,
      Record.file "...too many files.../c" 5]
    let limited := Forest.ofRoots (materialize (limitLeaves 1 records))
    let whole := Forest.ofRoots (materialize records)
    View.totalLeaves (materialize (limitLeaves 1 records)) ≤ 2 ∧
      materialize (limitLeaves 3 records) = materialize records ∧
      limited.follow? ["a"] = some (View.file "a" 3) ∧
      whole.follow? ["a"] = some ⟨"a", "", 0, true, [("b", View.file "b" 4)]⟩ ∧
      ∃ v w, limited.follow? ["d"] = some v ∧ whole.follow? ["d"] = some w ∧
        w.isDirectory = true := by
  intro records limited whole
  obtain ⟨hbound, -, hpart, hdirs⟩ := limited_tree_is_part 1 records
  have hunlimited := (limited_tree_is_part 3 records).2.1 (by decide)
  have hlimited : limitLeaves 1 records =
      [Record.file "a" 3, Record.directory "d/", Record.tooManyFiles] := by decide
  have hfile : limited.follow? ["a"] = some (View.file "a" 3) := by
    change (Forest.ofRoots (materialize (limitLeaves 1 records))).follow? ["a"] = _
    rw [hlimited]
    rfl
  have hd : Record.directory "d/" ∈ records := by simp [records]
  obtain ⟨v, hv, hdir⟩ := (hdirs _ hd rfl (by decide)).1
  obtain ⟨w, hw, hkind⟩ := hpart ["d"] v (by decide) hv
  exact ⟨hbound, hunlimited.2, hfile, rfl, v, w, hv, hw, hkind hdir⟩

end ContentPreview
