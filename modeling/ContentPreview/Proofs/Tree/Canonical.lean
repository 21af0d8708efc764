import ContentPreview.Keyed
import ContentPreview.Tree.Materialize
import Mathlib.Data.List.Induction

/-!
# Canonical trees

The trees that a listing can give.  A text may name a node if it can be a
component of a path: it is not empty, it is not `.`, and it holds no separator.
A tree is canonical if all its names are of this kind, every key is the name
below it and occurs once, files have no children, directories have no size, and
nothing has content.

Placing a record keeps a forest canonical (`Forest.Canonical.place`), because
`Keyed.alter` touches one entry and each of the two changes, settling a record
and descending into a directory, gives a canonical node under the same name.

## Main definitions

* `IsName` — the texts that may name a node.
* `View.Canonical`, `Forest.Canonical`, `View.AreCanonical` — canonical trees,
  forests and lists of roots.

## Main results

* `materializeForest_append_singleton` — the last record is placed last, so that what
  holds of the forest of every listing is shown by induction from the end.
* `canonical_materializeForest` — every listing gives a canonical forest.
* `components_intercalate` — a path joined from names has these names for its
  components.
-/

namespace ContentPreview

/-- Whether a text may name a node of a tree. -/
def IsName (name : String) : Prop :=
  name ≠ "" ∧ Path.separator ∉ name.toList ∧ name ≠ "."

instance (name : String) : Decidable (IsName name) := by
  unfold IsName
  infer_instance

/-! ## Names and paths -/

namespace Path

theorem not_mem_of_mem_splitOn {sep : Char} {cs part : List Char}
    (h : part ∈ cs.splitOn sep) : sep ∉ part := by
  induction cs generalizing part with
  | nil =>
      rw [List.splitOn_nil, List.mem_singleton] at h
      simp [h]
  | cons c rest ih =>
      rw [List.splitOn_cons_eq_if_modifyHead] at h
      by_cases hc : (c == sep) = true
      · rw [if_pos hc, List.mem_cons] at h
        rcases h with rfl | h
        · simp
        · exact ih h
      · rw [if_neg hc] at h
        cases hsplit : rest.splitOn sep with
        | nil => exact absurd hsplit (List.splitOn_ne_nil sep rest)
        | cons first others =>
            rw [hsplit, List.modifyHead_cons, List.mem_cons] at h
            rcases h with rfl | h
            · have hfirst := ih (hsplit ▸ List.mem_cons_self)
              have hne : sep ≠ c := by
                rintro rfl
                simp at hc
              simp [hne, hfirst]
            · exact ih (hsplit ▸ List.mem_cons_of_mem _ h)

theorem isProper_toList {name : String} (h : IsName name) : isProper name.toList = true := by
  have hempty : name.toList ≠ [] := by simpa using h.1
  have hdot : name.toList ≠ ['.'] := fun heq => h.2.2 (String.toList_inj.1 heq)
  simp [isProper, hempty, hdot]

theorem isName_of_mem_components {path c : String} (h : c ∈ components path) : IsName c := by
  simp only [components, parts, List.mem_map, List.mem_filter] at h
  obtain ⟨part, ⟨hmem, hproper⟩, rfl⟩ := h
  simp only [isProper, Bool.and_eq_true, decide_eq_true_eq] at hproper
  refine ⟨?_, ?_, ?_⟩
  · intro heq
    exact hproper.1 (by simpa using congrArg String.toList heq)
  · rw [String.toList_ofList]
    exact not_mem_of_mem_splitOn hmem
  · intro heq
    exact hproper.2 (by simpa using congrArg String.toList heq)

theorem components_intercalate {names : List String} (h : ∀ n ∈ names, IsName n) :
    components ("/".intercalate names) = names := by
  cases names with
  | nil => rfl
  | cons name names =>
      have hsplit : (("/".intercalate (name :: names)).toList).splitOn separator =
          (name :: names).map String.toList := by
        rw [String.toList_intercalate]
        refine List.splitOn_intercalate separator ?_ (by simp)
        intro l hl
        obtain ⟨n, hn, rfl⟩ := List.mem_map.1 hl
        exact (h n hn).2.1
      have hproper : ((name :: names).map String.toList).filter isProper =
          (name :: names).map String.toList := by
        refine List.filter_eq_self.2 ?_
        intro l hl
        obtain ⟨n, hn, rfl⟩ := List.mem_map.1 hl
        exact isProper_toList (h n hn)
      unfold components parts
      rw [hsplit, hproper, List.map_map]
      simp

end Path

/-! ## Canonical forests -/

/-- A tree with proper names, in which every key is the name below it and occurs
once, files have no children, directories have no size, and nothing has
content. -/
inductive View.Canonical : View → Prop where
  | file (name : String) (size : UInt64) (hname : IsName name) :
      Canonical (View.file name size)
  | directory (name : String) (children : Forest) (hname : IsName name)
      (hnodup : (children.map Prod.fst).Nodup) (hkeys : ∀ e ∈ children, e.1 = e.2.name)
      (hchildren : ∀ e ∈ children, Canonical e.2) :
      Canonical ⟨name, "", 0, true, children⟩

/-- A forest of canonical trees under their names. -/
structure Forest.Canonical (level : Forest) : Prop where
  nodup : (level.map Prod.fst).Nodup
  keys : ∀ e ∈ level, e.1 = e.2.name
  nodes : ∀ e ∈ level, e.2.Canonical

theorem Forest.Canonical.nil : Forest.Canonical [] := ⟨by simp, by simp, by simp⟩

/-- A list of canonical roots with distinct names. -/
def View.AreCanonical (roots : List View) : Prop :=
  (roots.map View.name).Nodup ∧ ∀ v ∈ roots, v.Canonical

/-- The roots of a preview under their names. -/
def Forest.ofRoots (roots : List View) : Forest := roots.map fun v => (v.name, v)

namespace View

theorem canonical_directory {name : String} {children : Forest} (hname : IsName name)
    (h : children.Canonical) : Canonical ⟨name, "", 0, true, children⟩ :=
  .directory name children hname h.nodup h.keys h.nodes

/-- A canonical node that is made a directory keeps its name and its children,
which form a canonical forest. -/
theorem Canonical.promoted {v : View} (h : v.Canonical) :
    v.promoted = ⟨v.name, "", 0, true, v.children⟩ ∧ Forest.Canonical v.children := by
  cases h with
  | file name size hname => exact ⟨rfl, Forest.Canonical.nil⟩
  | directory name children hname hnodup hkeys hchildren =>
      exact ⟨rfl, hnodup, hkeys, hchildren⟩

end View

namespace Forest

variable {level : Forest}

/-- A forest stays canonical when the entry under a key is changed to a canonical
node of that name. -/
theorem Canonical.alter {key : String} {change : Option View → View} (h : level.Canonical)
    (hchange : ∀ found : Option View,
      (∀ v, found = some v → v.name = key ∧ v.Canonical) →
        (change found).name = key ∧ (change found).Canonical) :
    Canonical (Keyed.alter key change level) := by
  have hnone := hchange none (by simp)
  have hsome (v : View) (hv : (key, v) ∈ level) := hchange (some v) (by
    intro w hw
    obtain rfl := Option.some.inj hw
    exact ⟨(h.keys _ hv).symm, h.nodes _ hv⟩)
  refine ⟨Keyed.nodup_alter h.nodup, ?_, ?_⟩
  · exact Keyed.forall_mem_alter h.keys hnone.1.symm fun v hv => (hsome v hv).1.symm
  · exact Keyed.forall_mem_alter h.nodes hnone.2 fun v hv => (hsome v hv).2

/-- Settling a record at its last component gives a canonical node. -/
theorem canonical_settle {name : String} (r : Record) (hname : IsName name)
    {found : Option View} (hfound : ∀ v, found = some v → v.name = name ∧ v.Canonical) :
    (settle name r found).name = name ∧ (settle name r found).Canonical := by
  cases found with
  | none =>
      simp only [settle]
      by_cases hdir : r.isDirectory = true
      · rw [if_pos hdir]
        exact ⟨rfl, View.canonical_directory hname .nil⟩
      · rw [if_neg hdir]
        exact ⟨rfl, .file name r.size hname⟩
  | some v =>
      obtain ⟨rfl, hv⟩ := hfound v rfl
      obtain ⟨hpromoted, hchildren⟩ := hv.promoted
      simp only [settle]
      by_cases hdir : r.isDirectory = true
      · rw [if_pos hdir, hpromoted]
        exact ⟨rfl, View.canonical_directory hname hchildren⟩
      · rw [if_neg hdir]
        cases hv with
        | file name size => exact ⟨rfl, .file name r.size hname⟩
        | directory name children hname hnodup hkeys hnodes =>
            exact ⟨rfl, .directory name children hname hnodup hkeys hnodes⟩

/-- A record placed at proper names keeps a forest canonical. -/
theorem Canonical.place {r : Record} {cs : List String} (h : level.Canonical)
    (hcs : ∀ c ∈ cs, IsName c) : Canonical (place r cs level) := by
  induction cs generalizing level with
  | nil => exact h
  | cons c rest ih =>
      have hname : IsName c := hcs c List.mem_cons_self
      cases rest with
      | nil => exact h.alter fun found hfound => canonical_settle r hname hfound
      | cons next rest =>
          have hrest : ∀ d ∈ next :: rest, IsName d := fun d hd =>
            hcs d (List.mem_cons_of_mem _ hd)
          refine h.alter fun found hfound => ?_
          have hnode : (found.getD (View.directory c)).name = c ∧
              (found.getD (View.directory c)).Canonical := by
            cases found with
            | none => exact ⟨rfl, View.canonical_directory hname .nil⟩
            | some v => exact hfound v rfl
          obtain ⟨hpromoted, hchildren⟩ := hnode.2.promoted
          simp only [hpromoted, hnode.1, true_and]
          exact View.canonical_directory hname (ih hchildren hrest)

theorem Canonical.insert (h : level.Canonical) (r : Record) : Canonical (level.insert r) :=
  h.place fun _ hc => Path.isName_of_mem_components hc

/-! ## Forests and lists of roots -/

theorem map_snd_ofRoots (roots : List View) : (ofRoots roots).map Prod.snd = roots := by
  simp [ofRoots, Function.comp_def]

/-- The nodes of a canonical forest are named by its keys. -/
theorem Canonical.map_name (h : level.Canonical) :
    (level.map Prod.snd).map View.name = level.map Prod.fst := by
  rw [List.map_map]
  exact List.map_congr_left fun e he => (h.keys e he).symm

/-- A canonical forest is told by its roots. -/
theorem Canonical.ofRoots_map_snd (h : level.Canonical) :
    ofRoots (level.map Prod.snd) = level := by
  unfold ofRoots
  rw [List.map_map]
  conv => rhs; rw [← List.map_id level]
  refine List.map_congr_left fun e he => ?_
  simp [← h.keys e he]

theorem canonical_ofRoots_iff {roots : List View} :
    (ofRoots roots).Canonical ↔ View.AreCanonical roots := by
  unfold ofRoots View.AreCanonical
  constructor
  · intro h
    refine ⟨by simpa [Function.comp_def] using h.nodup, fun v hv => ?_⟩
    exact h.nodes (v.name, v) (List.mem_map_of_mem hv)
  · rintro ⟨hnodup, hnodes⟩
    exact ⟨by simpa [Function.comp_def] using hnodup, by simp, by simpa using hnodes⟩

end Forest

/-! ## The forest of a listing -/

theorem materializeForest_append_singleton (records : List Record) (r : Record) :
    materializeForest (records ++ [r]) = (materializeForest records).insert r := by
  unfold materializeForest
  rw [List.foldl_append]
  rfl

/-- The forest of a listing is canonical. -/
theorem canonical_materializeForest (records : List Record) :
    (materializeForest records).Canonical := by
  induction records using List.reverseRecOn with
  | nil => exact .nil
  | append_singleton done r ih =>
      rw [materializeForest_append_singleton]
      exact ih.insert r

/-- The roots of a listing are those of its forest. -/
theorem ofRoots_materialize (records : List Record) :
    Forest.ofRoots (materialize records) = materializeForest records :=
  (canonical_materializeForest records).ofRoots_map_snd

end ContentPreview
