import ContentPreview.Proofs.ArchivePreview
import ContentPreview.Proofs.Path
import ContentPreview.Proofs.Tree.Bounding

/-!
# What a tree shows of a cut

When files of an archive are left out, a last record says so, and it is placed in the
tree by the rules for members.  So it is one more file at the root: it comes last and
there is one, hence it sets the size of a file of its name, and nothing else changes
(`follow?_insert_tooManyFiles`).  But a directory of its name stays a directory, and
then nothing in the tree tells that files are missing.

A file that was kept is shown with its size if its place is its own: no directory is
there, no other record of the kept ones, and not the record for files left out.

## Main results

* `components_ne_nil_of_mem_extract` — every record of an archive has a place.
* `follow?_insert_tooManyFiles` — what the record for files left out does at a place.
* `mark_mem_roots_iff`, `follow?_kept_file_iff` — the tree of a cut listing.
* `visible_cut_iff` — when a cut is visible, and which files are shown with their size.
-/

namespace ContentPreview

/-! ## Places of members -/

theorem Archive.Member.components_ne_nil {m : Member} {r : Record} (h : m.record? = some r) :
    Path.components r.path ≠ [] := by
  obtain ⟨path, hpath, rfl⟩ := m.exists_path_of_record h
  rw [Path.components_ofRaw]
  exact Path.components_ne_nil_of_normalize hpath

theorem Archive.Contents.components_ne_nil_of_listing {c : Contents Member} {records : List Record}
    (h : c.listing? = some records) {r : Record} (hr : r ∈ records) :
    Path.components r.path ≠ [] := by
  obtain ⟨m, -, hm⟩ := c.exists_member_of_listing h hr
  exact m.components_ne_nil hm

section Extraction

variable {x : Extractor} {format : ArchiveFormat} {s : Stream} {ledger : Ledger}

/-- Every record of an archive has a place. -/
theorem components_ne_nil_of_mem_extract {r : Record}
    (hr : r ∈ ((extract x format s).run ledger).1) : Path.components r.path ≠ [] := by
  cases htried : ((tryExtract x format s).run ledger).1 with
  | error e =>
      rw [extract_of_tryExtract_error htried] at hr
      cases hr
  | ok records =>
      obtain ⟨c, hc⟩ := listing_of_tryExtract htried
      rw [extract_of_tryExtract htried] at hr
      exact c.components_ne_nil_of_listing hc hr

end Extraction

/-! ## The record for files left out -/

namespace Forest

variable {level : Forest}

/-- The record for files left out settles the root of its name, and nothing else. -/
theorem follow?_insert_tooManyFiles {p : List String} (hp : p ≠ []) :
    (level.insert Record.tooManyFiles).follow? p =
      if p = [Record.tooManyFilesPath] then
        some (settle Record.tooManyFilesPath Record.tooManyFiles (level.follow? p))
      else level.follow? p := by
  unfold insert
  rw [components_tooManyFiles, follow?_place _ (by simp) hp]
  by_cases hroot : p = [Record.tooManyFilesPath]
  · subst hroot
    rw [if_pos rfl, if_pos rfl, List.getLast_singleton]
  · have hapart : ¬ p <+: [Record.tooManyFilesPath] := by
      rw [List.prefix_cons_iff]
      rintro (rfl | ⟨t, rfl, ht⟩)
      · exact hp rfl
      · rw [List.prefix_nil.1 ht] at hroot
        exact hroot rfl
    rw [if_neg hroot, if_neg hroot, if_neg hapart]

/-- A file settles as itself, unless a directory is there. -/
theorem settle_eq_file_iff {name : String} {r : Record} (hfile : r.isDirectory = false)
    {found : Option View} (hfound : ∀ v ∈ found, v.Canonical ∧ v.name = name) :
    settle name r found = View.file name r.size ↔ ∀ v ∈ found, v.isDirectory = false := by
  cases found with
  | none => simp [settle, hfile]
  | some v =>
      obtain ⟨hv, rfl⟩ := hfound v rfl
      cases hv with
      | file name size hname => simp [settle, hfile, View.file]
      | directory name children hname hnodup hkeys hchildren => simp [settle, hfile, View.file]

/-- The roots of a canonical forest are what its keys lead to. -/
theorem Canonical.mem_roots_iff (h : level.Canonical) (v : View) :
    v ∈ level.map Prod.snd ↔ level.follow? [v.name] = some v := by
  constructor
  · intro hmem
    obtain ⟨⟨key, w⟩, he, rfl⟩ := List.mem_map.1 hmem
    have hkey : key = w.name := h.keys _ he
    subst hkey
    exact Keyed.lookup_of_mem h.nodup he
  · intro hfollow
    exact List.mem_map.2 ⟨_, Keyed.mem_of_lookup hfollow, rfl⟩

end Forest

/-! ## The kept files -/

section Kept

variable {records : List Record} {p : List String}

/-- Nothing but a file is at a place where no record makes a directory. -/
theorem forall_isFile_iff (hp : p ≠ []) :
    (∀ v ∈ (materializeForest records).follow? p, v.isDirectory = false) ↔
      ¬ MakesDirectory records p := by
  have hdescribed := described_materializeForest records hp
  cases hfound : (materializeForest records).follow? p with
  | none =>
      rw [hfound] at hdescribed
      exact iff_of_true (by simp) fun hmakes => hdescribed hmakes.mentions
  | some v =>
      rw [hfound] at hdescribed
      rw [← hdescribed.2.1]
      simp

/-- A file with a place of its own is shown with its size. -/
theorem follow?_of_only_file {before after : List Record} {r : Record}
    (hp : Path.components r.path ≠ [])
    (honly : ∀ r' ∈ before ++ after, Path.components r'.path ≠ Path.components r.path)
    (hfile : ∀ v, (materializeForest (before ++ r :: after)).follow? (Path.components r.path) =
      some v → v.isDirectory = false) :
    (materializeForest (before ++ r :: after)).follow? (Path.components r.path) =
      some (View.file ((Path.components r.path).getLast hp) r.size) := by
  have hmentions : Mentions (before ++ r :: after) (Path.components r.path) :=
    ⟨r, by simp, List.prefix_refl _⟩
  have hdescribed := described_materializeForest (before ++ r :: after) hp
  cases hfound : (materializeForest (before ++ r :: after)).follow? (Path.components r.path) with
  | none =>
      rw [hfound] at hdescribed
      exact absurd hmentions hdescribed
  | some v =>
      rw [hfound] at hdescribed
      obtain ⟨hv, hname⟩ := (canonical_materializeForest _).follow? hp hfound
      obtain ⟨r', ⟨front, back, hsplit, -, hplace, -⟩, hsize⟩ :=
        hdescribed.2.2 (hfile v hfound)
      have hr' : r' ∈ before ++ r :: after := by rw [hsplit]; simp
      obtain rfl : r' = r := by
        rw [List.mem_append, List.mem_cons] at hr'
        rcases hr' with hbefore | rfl | hafter
        · exact absurd hplace (honly r' (List.mem_append_left _ hbefore))
        · rfl
        · exact absurd hplace (honly r' (List.mem_append_right _ hafter))
      cases hv with
      | file name size hname' =>
          change name = _ at hname
          change size = _ at hsize
          rw [hname, hsize]
      | directory name children hname' hnodup hkeys hchildren =>
          have hnot := hfile _ hfound
          cases hnot

end Kept

/-! ## The tree of a cut archive -/

section Cut

variable {records : List Record} {max : Nat}

theorem ofRoots_cut (hcut : max < leafTotal records) :
    Forest.ofRoots (materialize (limitLeaves max records)) =
      materializeForest (firstLeaves max records ++ [Record.tooManyFiles]) := by
  rw [ofRoots_materialize, limitLeaves_of_lt hcut]

/-- The record for files left out is a root, unless there is a directory. -/
theorem follow?_mark_iff (hcut : max < leafTotal records) :
    (Forest.ofRoots (materialize (limitLeaves max records))).follow? [Record.tooManyFilesPath] =
        some (View.file Record.tooManyFilesPath 0) ↔
      ¬ MakesDirectory (firstLeaves max records) [Record.tooManyFilesPath] := by
  rw [ofRoots_cut hcut, materializeForest_append_singleton,
    Forest.follow?_insert_tooManyFiles (by simp), if_pos rfl, Option.some_inj,
    ← forall_isFile_iff (by simp)]
  exact Forest.settle_eq_file_iff rfl fun v hv =>
    (canonical_materializeForest _).follow? (by simp) hv

theorem mark_mem_roots_iff (hcut : max < leafTotal records) :
    View.file Record.tooManyFilesPath 0 ∈ materialize (limitLeaves max records) ↔
      ¬ MakesDirectory (firstLeaves max records) [Record.tooManyFilesPath] := by
  rw [← follow?_mark_iff hcut, ofRoots_materialize]
  exact (canonical_materializeForest _).mem_roots_iff _

/-- A kept file with a place of its own is shown with its size, unless the place is that
of the record for files left out, which comes last and so gives its own. -/
theorem follow?_kept_file_iff (hcut : max < leafTotal records) {before after : List Record}
    {r : Record} (hsplit : firstLeaves max records = before ++ r :: after)
    (hplace : Path.components r.path ≠ [])
    (honly : ∀ r' ∈ before ++ after, Path.components r'.path ≠ Path.components r.path)
    (hshown : ∀ v, (Forest.ofRoots (materialize (limitLeaves max records))).follow?
      (Path.components r.path) = some v → v.isDirectory = false) :
    (Forest.ofRoots (materialize (limitLeaves max records))).follow? (Path.components r.path) =
        some (View.file ((Path.components r.path).getLast hplace) r.size) ↔
      Path.components r.path ≠ [Record.tooManyFilesPath] ∨ r.size = 0 := by
  by_cases hroot : Path.components r.path = [Record.tooManyFilesPath]
  · have hnot : ¬ MakesDirectory (firstLeaves max records) [Record.tooManyFilesPath] := by
      rw [ofRoots_cut hcut] at hshown
      have hfiles := (forall_isFile_iff hplace).1 hshown
      rw [hroot, makesDirectory_append] at hfiles
      exact fun hmakes => hfiles (Or.inl hmakes)
    simp only [hroot, (follow?_mark_iff hcut).2 hnot]
    simp [View.file, eq_comm]
  · refine iff_of_true ?_ (Or.inl hroot)
    rw [ofRoots_cut hcut, materializeForest_append_singleton,
      Forest.follow?_insert_tooManyFiles hplace, if_neg hroot, hsplit] at hshown ⊢
    exact follow?_of_only_file hplace honly hshown

end Cut

/-- **When a cut is visible.**  If files of an archive are left out, the roots have a file
of size zero that says so, unless a directory that was kept has its name or a record that
was kept is below that name.  A file that was kept at a place of its own, where the tree
has no directory, is shown with its size, unless the place is that of the file that
says so: then it is shown as empty. -/
theorem visible_cut_iff {x : Extractor} {format : ArchiveFormat} {s : Stream}
    {ledger : Ledger} {max : Nat}
    (hcut : max < leafTotal ((extract x format s).run ledger).1) :
    let records := ((extract x format s).run ledger).1
    let kept := firstLeaves max records
    let roots := materialize (limitLeaves max records)
    (View.file Record.tooManyFilesPath 0 ∈ roots ↔
        ¬ MakesDirectory kept [Record.tooManyFilesPath]) ∧
      ∀ before r after, kept = before ++ r :: after → r.isDirectory = false →
        let place := Path.components r.path
        (∀ r' ∈ before ++ after, Path.components r'.path ≠ place) →
        (∀ v, (Forest.ofRoots roots).follow? place = some v → v.isDirectory = false) →
        ∃ name, place.getLast? = some name ∧
          ((Forest.ofRoots roots).follow? place = some (View.file name r.size) ↔
            place ≠ [Record.tooManyFilesPath] ∨ r.size = 0) := by
  intro records kept roots
  refine ⟨mark_mem_roots_iff hcut, ?_⟩
  intro before r after hsplit _ place honly hshown
  have hmem : r ∈ kept := by
    rw [hsplit]
    simp
  have hplace : place ≠ [] :=
    components_ne_nil_of_mem_extract ((firstLeaves_sublist max records).subset hmem)
  exact ⟨place.getLast hplace, List.getLast?_eq_some_getLast hplace,
    follow?_kept_file_iff hcut hsplit hplace honly hshown⟩

/-- An archive with two files and room for one. -/
theorem visible_cut_iff_awkward :
    let records := ((extract {} .zip (.ofBytes Service.awkwardArchive)).run {}).1
    let roots := materialize (limitLeaves 1 records)
    1 < leafTotal records ∧ View.file Record.tooManyFilesPath 0 ∈ roots ∧
      (Forest.ofRoots roots).follow? ["b"] = some (View.file "b" 7) := by
  intro records roots
  have hrecords : records = [Record.directory "a|1/", Record.file "b" 7, Record.file "c" 1] := by
    decide +kernel
  have hcut : 1 < leafTotal records := by
    rw [hrecords]
    decide
  have hkept : firstLeaves 1 records = [Record.directory "a|1/"] ++ Record.file "b" 7 :: [] := by
    rw [hrecords]
    rfl
  have hplace : Path.components (Record.file "b" 7).path = ["b"] := by decide
  have hkind : ((Forest.ofRoots roots).follow? ["b"]).map View.isDirectory = some false := by
    change ((Forest.ofRoots (materialize (limitLeaves 1 records))).follow? ["b"]).map _ = _
    rw [hrecords]
    rfl
  obtain ⟨hmark, hfiles⟩ := visible_cut_iff hcut
  obtain ⟨name, hname, hown⟩ := hfiles _ _ _ hkept rfl (by decide) fun v hv => by
    rw [hplace] at hv
    rw [hv] at hkind
    exact Option.some.inj hkind
  rw [hplace] at hname hown
  obtain rfl : "b" = name := Option.some.inj hname
  refine ⟨hcut, hmark.2 ?_, hown.2 (Or.inl (by decide))⟩
  rw [hkept]
  unfold MakesDirectory
  decide

/-- A ZIP archive with the members `a` of one byte, `...too many files.../` and `b` of
two bytes. -/
def maskedArchive : List UInt8 :=
  [80, 75, 3, 4, 20, 0, 0, 0, 0, 0, 0, 0, 33, 0, 131, 22, 220, 140, 1, 0, 0, 0, 1, 0, 0, 0, 1,
   0, 0, 0, 97, 120, 80, 75, 3, 4, 20, 0, 0, 0, 0, 0, 0, 0, 33, 0, 0, 0, 0, 0, 0, 0, 0, 0, 0, 0,
   0, 0, 21, 0, 0, 0, 46, 46, 46, 116, 111, 111, 32, 109, 97, 110, 121, 32, 102, 105, 108, 101,
   115, 46, 46, 46, 47, 80, 75, 3, 4, 20, 0, 0, 0, 0, 0, 0, 0, 33, 0, 98, 72, 244, 15, 2, 0, 0,
   0, 2, 0, 0, 0, 1, 0, 0, 0, 98, 121, 122, 80, 75, 1, 2, 20, 0, 20, 0, 0, 0, 0, 0, 0, 0, 33, 0,
   131, 22, 220, 140, 1, 0, 0, 0, 1, 0, 0, 0, 1, 0, 0, 0, 0, 0, 0, 0, 0, 0, 0, 0, 128, 1, 0, 0,
   0, 0, 97, 80, 75, 1, 2, 20, 0, 20, 0, 0, 0, 0, 0, 0, 0, 33, 0, 0, 0, 0, 0, 0, 0, 0, 0, 0, 0,
   0, 0, 21, 0, 0, 0, 0, 0, 0, 0, 0, 0, 0, 0, 128, 1, 32, 0, 0, 0, 46, 46, 46, 116, 111, 111,
   32, 109, 97, 110, 121, 32, 102, 105, 108, 101, 115, 46, 46, 46, 47, 80, 75, 1, 2, 20, 0, 20,
   0, 0, 0, 0, 0, 0, 0, 33, 0, 98, 72, 244, 15, 2, 0, 0, 0, 2, 0, 0, 0, 1, 0, 0, 0, 0, 0, 0, 0,
   0, 0, 0, 0, 128, 1, 83, 0, 0, 0, 98, 80, 75, 5, 6, 0, 0, 0, 0, 3, 0, 3, 0, 161, 0, 0, 0, 116,
   0, 0, 0, 0, 0]

/-- A directory of that name hides that a file was left out: no root is a file of that
name. -/
theorem cut_hidden_by_directory :
    let records := ((extract {} .zip (.ofBytes maskedArchive)).run {}).1
    let roots := materialize (limitLeaves 1 records)
    records = [Record.file "a" 1, Record.directory "...too many files.../", Record.file "b" 2] ∧
      1 < leafTotal records ∧
      (∀ v ∈ roots, v.name = Record.tooManyFilesPath → v.isDirectory = true) ∧
      View.file Record.tooManyFilesPath 0 ∉ roots := by
  intro records roots
  have hrecords : records =
      [Record.file "a" 1, Record.directory "...too many files.../", Record.file "b" 2] := by
    decide +kernel
  have hroots : roots = [View.file "a" 1, View.directory Record.tooManyFilesPath] := by
    change materialize (limitLeaves 1 records) = _
    rw [hrecords]
    rfl
  refine ⟨hrecords, ?_, ?_, ?_⟩
  · rw [hrecords]
    decide
  all_goals
    rw [hroots]
    simp [View.file, View.directory, Record.tooManyFilesPath]

end ContentPreview
