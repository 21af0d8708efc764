import ContentPreview.Keyed
import ContentPreview.Proofs.Confinement
import Mathlib.Data.List.Nodup

/-!
# The files of a tree and their paths

A walk through a tree names each file by its path, and later the path is all that is
known of the file.  In a tree as a file system holds it, nothing is lost by that: the
names of an entry contain no separator and are none of the steps with a meaning of their
own, and within a folder they are distinct.  Then the steps of a path are the names it was
joined from, no two files have the same path, and each path leads back to its file.

The walk itself carries a path that has been joined already.  Its specification is
`FileTree.leaves`, which lists the files behind lists of names.

## Main definitions

* `FileTree.IsEntryName`, `FileTree.IsProper` — the trees that a file system can hold.
* `FileTree.leaves` — the files of a tree behind the names that lead to them.

## Main results

* `files_eq` — a walk finds the leaves, under the joined names.
* `nodup_paths` — no two files have the same path.
* `content?_of_mem_leaves` — the path of a file leads to its content.
* `escapes_of_mem_leaves` — the path of a file does not lead out of the tree.
-/

namespace ContentPreview

namespace FileTree

/-- A name that an entry of a folder can have. -/
def IsEntryName (name : String) : Prop :=
  name ≠ "" ∧ name ≠ "." ∧ name ≠ ".." ∧ '/' ∉ name.toList

instance (name : String) : Decidable (IsEntryName name) :=
  inferInstanceAs (Decidable (_ ∧ _))

mutual

/-- A tree as a file system holds it: the entries of each folder have names that are
different and can be told apart from the special steps. -/
def IsProper : FileTree → Prop
  | file _ => True
  | folder entries => AreProper entries

/-- Entries that a folder can have. -/
def AreProper : List (String × FileTree) → Prop
  | [] => True
  | (name, tree) :: rest =>
    IsEntryName name ∧ name ∉ rest.map Prod.fst ∧ tree.IsProper ∧ AreProper rest

end

mutual

/-- The files of a tree, each behind the names that lead to it. -/
def leaves : FileTree → List (List String × Stream)
  | file content => [([], content)]
  | folder entries => leavesOfEntries entries

/-- The files of a list of entries, each behind the names that lead to it. -/
def leavesOfEntries : List (String × FileTree) → List (List String × Stream)
  | [] => []
  | (name, tree) :: rest =>
    (tree.leaves.map fun leaf => (name :: leaf.1, leaf.2)) ++ leavesOfEntries rest

end

/-- The path that consists of the given names. -/
def joined (names : List String) : String := "/".intercalate names

/-! ## Names and paths -/

theorem joined_eq_empty_iff {names : List String} (h : ∀ name ∈ names, name ≠ "") :
    joined names = "" ↔ names = [] := by
  constructor
  · intro hempty
    cases names with
    | nil => rfl
    | cons name rest =>
        have hname : name ≠ "" := h name List.mem_cons_self
        cases rest with
        | nil =>
            rw [joined, String.intercalate_singleton] at hempty
            exact absurd hempty hname
        | cons next rest =>
            rw [joined, String.intercalate_cons_cons, String.append_eq_empty_iff,
              String.append_eq_empty_iff] at hempty
            exact absurd hempty.1.1 hname
  · rintro rfl
    rfl

/-- The path below a path. -/
theorem joined_concat {names : List String} (h : ∀ name ∈ names, name ≠ "") (name : String) :
    joined (names ++ [name]) =
      if joined names = "" then name else joined names ++ "/" ++ name := by
  induction names with
  | nil => rfl
  | cons first rest ih =>
      have hne : ¬ joined (first :: rest) = "" := by
        rw [joined_eq_empty_iff h]
        exact List.cons_ne_nil first rest
      rw [if_neg hne]
      cases rest with
      | nil => rfl
      | cons next rest =>
          have hnext : ¬ joined (next :: rest) = "" := by
            rw [joined_eq_empty_iff fun n hn => h n (List.mem_cons_of_mem _ hn)]
            exact List.cons_ne_nil next rest
          have hrest := ih fun n hn => h n (List.mem_cons_of_mem _ hn)
          rw [if_neg hnext] at hrest
          have hcons (names : List String) (hnames : names ≠ []) :
              joined (first :: names) = first ++ "/" ++ joined names := by
            cases names with
            | nil => exact absurd rfl hnames
            | cons n ns => exact String.intercalate_cons_cons
          rw [List.cons_append, hcons _ (by simp), hcons _ (by simp), hrest]
          simp only [String.append_assoc]

/-- The steps of a path are the names it was joined from. -/
theorem steps_joined {names : List String} (hne : names ≠ [])
    (h : ∀ name ∈ names, IsEntryName name) : steps (joined names) = names := by
  have hsplit : (['/'].intercalate (names.map String.toList)).splitOn '/' =
      names.map String.toList := by
    refine List.splitOn_intercalate '/' ?_ (by simpa using hne)
    intro chars hchars
    obtain ⟨name, hname, rfl⟩ := List.mem_map.1 hchars
    exact (h name hname).2.2.2
  unfold steps joined
  rw [String.toList_intercalate]
  change ((['/'].intercalate (names.map String.toList)).splitOn '/').map String.ofList = names
  rw [hsplit, List.map_map]
  exact (List.map_congr_left fun name _ => String.ofList_toList).trans (List.map_id names)

/-! ## The leaves of a tree -/

theorem exists_of_mem_leavesOfEntries {entries : List (String × FileTree)}
    {leaf : List String × Stream} (h : leaf ∈ leavesOfEntries entries) :
    ∃ name tree, (name, tree) ∈ entries ∧
      ∃ below ∈ tree.leaves, leaf = (name :: below.1, below.2) := by
  induction entries with
  | nil => cases h
  | cons entry rest ih =>
      obtain ⟨name, tree⟩ := entry
      rw [leavesOfEntries, List.mem_append, List.mem_map] at h
      rcases h with ⟨below, hbelow, rfl⟩ | hrest
      · exact ⟨name, tree, List.mem_cons_self, below, hbelow, rfl⟩
      · obtain ⟨name', tree', hentry, hleaf⟩ := ih hrest
        exact ⟨name', tree', List.mem_cons_of_mem _ hentry, hleaf⟩

/-- A file in a folder has a name. -/
theorem names_ne_nil_of_mem_leaves {entries : List (String × FileTree)}
    {leaf : List String × Stream} (h : leaf ∈ (folder entries).leaves) : leaf.1 ≠ [] := by
  obtain ⟨name, _, _, below, _, rfl⟩ := exists_of_mem_leavesOfEntries h
  exact List.cons_ne_nil name below.1

theorem AreProper.nodup {entries : List (String × FileTree)} (h : AreProper entries) :
    (entries.map Prod.fst).Nodup := by
  induction entries with
  | nil => exact List.nodup_nil
  | cons entry rest ih =>
      obtain ⟨-, hnew, -, hrest⟩ := h
      exact List.nodup_cons.2 ⟨hnew, ih hrest⟩

theorem AreProper.of_mem {entries : List (String × FileTree)} (h : AreProper entries)
    {name : String} {tree : FileTree} (hentry : (name, tree) ∈ entries) :
    IsEntryName name ∧ tree.IsProper := by
  induction entries with
  | nil => cases hentry
  | cons entry rest ih =>
      obtain ⟨hname, -, htree, hrest⟩ := h
      rcases List.mem_cons.1 hentry with rfl | hentry
      · exact ⟨hname, htree⟩
      · exact ih hrest hentry

/-- All names on the way to a file are names of entries. -/
theorem isEntryName_of_mem_leaves {tree : FileTree} (h : tree.IsProper)
    {leaf : List String × Stream} (hleaf : leaf ∈ tree.leaves) :
    ∀ name ∈ leaf.1, IsEntryName name := by
  obtain ⟨names, content⟩ := leaf
  induction names generalizing tree with
  | nil => exact fun _ hname => nomatch hname
  | cons first rest ih =>
      cases tree with
      | file content =>
          rw [leaves, List.mem_singleton] at hleaf
          cases hleaf
      | folder entries =>
          obtain ⟨name, sub, hentry, below, hbelow, heq⟩ := exists_of_mem_leavesOfEntries hleaf
          cases heq
          obtain ⟨hname, hsub⟩ := AreProper.of_mem h hentry
          exact List.forall_mem_cons.2 ⟨hname, ih hsub hbelow⟩

/-! ## The walk -/

mutual

theorem filesBelow_eq (tree : FileTree) (h : tree.IsProper) (front : List String)
    (hfront : ∀ name ∈ front, name ≠ "") :
    tree.filesBelow (joined front) =
      tree.leaves.map fun leaf => (joined (front ++ leaf.1), leaf.2) :=
  match tree with
  | file content => by rw [filesBelow, leaves, List.map_singleton, List.append_nil]
  | folder entries => by
    rw [filesBelow, leaves]
    exact filesOfEntries_eq entries h front hfront

theorem filesOfEntries_eq (entries : List (String × FileTree)) (h : AreProper entries)
    (front : List String) (hfront : ∀ name ∈ front, name ≠ "") :
    filesOfEntries (joined front) entries =
      (leavesOfEntries entries).map fun leaf => (joined (front ++ leaf.1), leaf.2) :=
  match entries with
  | [] => rfl
  | (name, tree) :: rest => by
    obtain ⟨hname, -, htree, hrest⟩ := h
    have hlonger : ∀ n ∈ front ++ [name], n ≠ "" := by
      simpa [or_imp, forall_and] using And.intro hfront hname.1
    rw [filesOfEntries, leavesOfEntries, ← joined_concat hfront,
      filesBelow_eq tree htree (front ++ [name]) hlonger, filesOfEntries_eq rest hrest front hfront,
      List.map_append, List.map_map]
    simp only [List.append_assoc, List.cons_append, List.nil_append]
    rfl

end

/-- A walk through a tree finds its leaves, each under the path that its names make. -/
theorem files_eq {tree : FileTree} (h : tree.IsProper) :
    tree.files = tree.leaves.map fun leaf => (joined leaf.1, leaf.2) :=
  filesBelow_eq tree h [] fun _ hname => nomatch hname

mutual

/-- No two files are behind the same names. -/
theorem nodup_leaves (tree : FileTree) (h : tree.IsProper) : (tree.leaves.map Prod.fst).Nodup :=
  match tree with
  | file _ => List.nodup_singleton []
  | folder entries => nodup_leavesOfEntries entries h

theorem nodup_leavesOfEntries (entries : List (String × FileTree)) (h : AreProper entries) :
    ((leavesOfEntries entries).map Prod.fst).Nodup :=
  match entries with
  | [] => List.nodup_nil
  | (name, tree) :: rest => by
    obtain ⟨-, hnew, htree, hrest⟩ := h
    have hcons : Function.Injective (List.cons name) := fun _ _ heq => (List.cons.inj heq).2
    have hhead : ((tree.leaves.map fun leaf => (name :: leaf.1, leaf.2)).map Prod.fst) =
        (tree.leaves.map Prod.fst).map (List.cons name) := by
      rw [List.map_map, List.map_map]
      rfl
    rw [leavesOfEntries, List.map_append, hhead, List.nodup_append]
    refine ⟨(nodup_leaves tree htree).map hcons, nodup_leavesOfEntries rest hrest, ?_⟩
    rintro path hpath other hother rfl
    obtain ⟨names, -, rfl⟩ := List.mem_map.1 hpath
    obtain ⟨leaf, hleaf, hnames⟩ := List.mem_map.1 hother
    obtain ⟨name', tree', hentry, below, -, rfl⟩ := exists_of_mem_leavesOfEntries hleaf
    cases hnames
    exact hnew (List.mem_map_of_mem hentry)

end

/-- No two files of a folder have the same path. -/
theorem nodup_paths {entries : List (String × FileTree)} (h : (folder entries).IsProper) :
    ((folder entries).files.map Prod.fst).Nodup := by
  have hpaths : (folder entries).files.map Prod.fst =
      ((folder entries).leaves.map Prod.fst).map joined := by
    rw [files_eq h, List.map_map, List.map_map]
    rfl
  rw [hpaths]
  refine (nodup_leaves _ h).map_on ?_
  intro names hnames other hother heq
  obtain ⟨leaf, hleaf, rfl⟩ := List.mem_map.1 hnames
  obtain ⟨leaf', hleaf', rfl⟩ := List.mem_map.1 hother
  rw [← steps_joined (names_ne_nil_of_mem_leaves hleaf) (isEntryName_of_mem_leaves h hleaf),
    ← steps_joined (names_ne_nil_of_mem_leaves hleaf') (isEntryName_of_mem_leaves h hleaf'), heq]

/-! ## The way back -/

theorem follow?_of_mem_leaves {tree : FileTree} (h : tree.IsProper) {names : List String}
    {content : Stream} (hleaf : (names, content) ∈ tree.leaves)
    (trail : List (String × FileTree)) :
    follow? names trail tree =
      some ⟨(trail.map Prod.fst).reverse ++ names, file content⟩ := by
  induction names generalizing tree trail with
  | nil =>
      cases tree with
      | file found =>
          rw [leaves, List.mem_singleton, Prod.mk.injEq] at hleaf
          rw [follow?, List.append_nil, hleaf.2]
      | folder entries => exact absurd rfl (names_ne_nil_of_mem_leaves hleaf)
  | cons first rest ih =>
      cases tree with
      | file found =>
          rw [leaves, List.mem_singleton] at hleaf
          cases hleaf
      | folder entries =>
          obtain ⟨name, sub, hentry, below, hbelow, heq⟩ := exists_of_mem_leavesOfEntries hleaf
          cases heq
          obtain ⟨⟨hempty, hhere, hback, -⟩, hsub⟩ := AreProper.of_mem h hentry
          have hlookup : entries.lookup first = some sub :=
            Keyed.lookup_of_mem (AreProper.nodup h) hentry
          unfold follow?
          dsimp only
          rw [if_neg (by simp [hempty, hhere]), if_neg hback, hlookup]
          dsimp only
          rw [ih hsub hbelow, List.map_cons, List.reverse_cons, List.append_assoc]
          rfl

section

variable {entries : List (String × FileTree)} (h : (folder entries).IsProper)
  {leaf : List String × Stream} (hleaf : leaf ∈ (folder entries).leaves)

include h hleaf

/-- The path of a file leads to its content. -/
theorem content?_of_mem_leaves : (folder entries).content? (joined leaf.1) = some leaf.2 := by
  have hsteps := steps_joined (names_ne_nil_of_mem_leaves hleaf) (isEntryName_of_mem_leaves h hleaf)
  unfold content? find?
  rw [hsteps, follow?_of_mem_leaves h hleaf]

/-- The path of a file does not lead out of the tree. -/
theorem escapes_of_mem_leaves : escapes (joined leaf.1) = false := by
  have hnames := isEntryName_of_mem_leaves h hleaf
  have hne := names_ne_nil_of_mem_leaves hleaf
  have hback : ".." ∉ steps (joined leaf.1) := by
    rw [steps_joined hne hnames]
    exact fun hmem => (hnames ".." hmem).2.2.1 rfl
  have hfront : (joined leaf.1).toList.head? ≠ some '/' := by
    obtain ⟨first, rest, hcons⟩ := List.exists_cons_of_ne_nil hne
    obtain ⟨hempty, -, -, hsingle⟩ := hnames first (by rw [hcons]; exact List.mem_cons_self)
    obtain ⟨c, cs, hchars⟩ := List.exists_cons_of_ne_nil
      (show first.toList ≠ [] by simpa using hempty)
    have hhead : (joined leaf.1).toList.head? = some c := by
      rw [hcons]
      cases rest with
      | nil => rw [joined, String.intercalate_singleton, hchars, List.head?_cons]
      | cons next rest =>
          rw [joined, String.intercalate_cons_cons, String.toList_append, String.toList_append,
            hchars]
          rfl
    rw [hhead, ne_eq, Option.some.injEq]
    rintro rfl
    exact hsingle (by rw [hchars]; exact List.mem_cons_self)
  rw [← Bool.not_eq_true, escapes_iff, Path.isAbsolute_iff]
  exact not_or_intro hfront hback

end

end FileTree

end ContentPreview
