import ContentPreview.Proofs.Tree.Placement

/-!
# Listings in another order

The order of a listing shows in the order of siblings and, where files at one place differ
in size, in the size that is kept.  It shows nowhere else.  Whether a place is taken and
whether a directory stands there depends on which records there are and not on when they
come, although a record may make a node, find it, promote it or be shadowed by it.

Two trees are compared place by place.  `described_materializeForest` says what stands at
a place, and says it in terms that a rearrangement keeps, apart from the last file.  What
is alike at all places is the same tree up to the order of children
(`View.Canonical.same_of_agree`): two keys that both lead somewhere lead to nodes that are
alike and below which all places are alike again.

## Main definitions

* `View.bare` — a node without what is below it.
* `Forest.Agree` — two forests with the same bare nodes at the same places.
* `FilesAgree` — the files of a listing at one place have one size.

## Main results

* `View.Canonical.same_of_agree` — trees that agree at all places are the same.
* `agree_materializeForest` — the forests of a listing and of a rearranged one agree.
* `same_materialize_of_perm` — a rearranged listing has the same roots.
-/

namespace ContentPreview

/-! ## Equality up to the order of children -/

namespace View

/-- The node without what is below it. -/
def bare (v : View) : View := { v with children := [] }

theorem allIn_iff {children others : Forest} :
    allIn children others = true ↔
      ∀ e ∈ children, ∃ w, others.lookup e.1 = some w ∧ e.2.same w = true := by
  induction children with
  | nil => simp [allIn]
  | cons e rest ih =>
      obtain ⟨key, v⟩ := e
      rw [allIn, Bool.and_eq_true, ih, List.forall_mem_cons]
      refine and_congr_left' ?_
      cases others.lookup key with
      | none => simp
      | some w => simp

theorem same_iff {v w : View} :
    v.same w = true ↔ v.bare = w.bare ∧ v.children.length = w.children.length ∧
      ∀ e ∈ v.children, ∃ x, w.children.lookup e.1 = some x ∧ e.2.same x = true := by
  obtain ⟨name, content, size, isDirectory, children⟩ := v
  rw [same]
  simp only [Bool.and_eq_true, beq_iff_eq, allIn_iff, bare, mk.injEq, and_true, and_assoc]

/-- Canonical nodes of one name and kind differ in nothing but the size of a file and in
what is below them. -/
theorem Canonical.bare_eq {v w : View} (hv : v.Canonical) (hw : w.Canonical)
    (hname : v.name = w.name) (hkind : v.isDirectory = w.isDirectory)
    (hsize : v.isDirectory = false → v.size = w.size) : v.bare = w.bare := by
  cases hv with
  | file name size =>
      cases hw with
      | file name' size' =>
          obtain rfl : name = name' := hname
          obtain rfl : size = size' := hsize rfl
          rfl
      | directory => cases hkind
  | directory name children =>
      cases hw with
      | file => cases hkind
      | directory name' children' =>
          obtain rfl : name = name' := hname
          rfl

end View

/-! ## Agreement at all places -/

namespace Forest

/-- The same places of two forests are taken, by nodes that are alike apart from what is
below them. -/
def Agree (level other : Forest) : Prop :=
  ∀ p, (follow? p level).map View.bare = (follow? p other).map View.bare

namespace Agree

variable {level other : Forest}

/-- A node has a counterpart under its key, and what is below the two agrees again. -/
theorem counterpart (h : level.Agree other) {key : String} {v : View}
    (hv : level.lookup key = some v) :
    ∃ w, other.lookup key = some w ∧ v.bare = w.bare ∧ Agree v.children w.children := by
  have hhere : (level.lookup key).map View.bare = (other.lookup key).map View.bare := h [key]
  rw [hv, Option.map_some, eq_comm, Option.map_eq_some_iff] at hhere
  obtain ⟨w, hw, hbare⟩ := hhere
  refine ⟨w, hw, hbare.symm, fun p => ?_⟩
  cases p with
  | nil => rfl
  | cons next rest =>
      have hbelow := h (key :: next :: rest)
      rwa [follow?_cons_cons, follow?_cons_cons, hv, hw] at hbelow

theorem map_fst_perm (h : level.Agree other) (hlevel : level.Canonical)
    (hother : other.Canonical) : (level.map Prod.fst).Perm (other.map Prod.fst) := by
  refine (List.perm_ext_iff_of_nodup hlevel.nodup hother.nodup).2 fun key => ?_
  have hhere : (level.lookup key).map View.bare = (other.lookup key).map View.bare := h [key]
  rw [Keyed.mem_map_fst_iff, Keyed.mem_map_fst_iff, ← Option.isSome_map (f := View.bare),
    hhere, Option.isSome_map]

theorem length_eq (h : level.Agree other) (hlevel : level.Canonical)
    (hother : other.Canonical) : level.length = other.length := by
  simpa using (h.map_fst_perm hlevel hother).length_eq

end Agree

end Forest

/-- Canonical trees that agree at all places are the same up to the order of children. -/
theorem View.Canonical.same_of_agree {v w : View} (hv : v.Canonical) (hw : w.Canonical)
    (hbare : v.bare = w.bare) (hbelow : Forest.Agree v.children w.children) :
    v.same w = true := by
  obtain ⟨-, hchildren'⟩ := hw.promoted
  induction hv generalizing w with
  | file name size =>
      exact same_iff.2 ⟨hbare, hbelow.length_eq .nil hchildren', by simp [View.file]⟩
  | directory name children hname hnodup hkeys hchildren ih =>
      refine same_iff.2 ⟨hbare, hbelow.length_eq ⟨hnodup, hkeys, hchildren⟩ hchildren', ?_⟩
      intro e he
      obtain ⟨x, hx, hbare', hbelow'⟩ := hbelow.counterpart (Keyed.lookup_of_mem hnodup he)
      have hcanonical := hchildren'.nodes _ (Keyed.mem_of_lookup hx)
      exact ⟨x, hx, ih e he hcanonical hbare' hbelow' hcanonical.promoted.2⟩

/-! ## What a rearrangement keeps -/

/-- The files of a listing at one place have the same size. -/
def FilesAgree (records : List Record) : Prop :=
  ∀ r ∈ records, ∀ r' ∈ records, r.isDirectory = false → r'.isDirectory = false →
    Path.components r.path = Path.components r'.path → r.size = r'.size

section Rearranged

variable {records records' : List Record} {p : List String}

theorem mentions_perm (hperm : records.Perm records') :
    Mentions records p ↔ Mentions records' p := by
  unfold Mentions
  simp only [hperm.mem_iff]

theorem makesDirectory_perm (hperm : records.Perm records') :
    MakesDirectory records p ↔ MakesDirectory records' p := by
  unfold MakesDirectory
  simp only [hperm.mem_iff]

theorem IsLastFile.mem {r : Record} (h : IsLastFile records p r) : r ∈ records := by
  obtain ⟨before, after, rfl, -⟩ := h
  simp

/-- Whichever file is the last one at a place, it has the same size. -/
theorem FilesAgree.size_eq (hfiles : FilesAgree records) (hperm : records.Perm records')
    {r r' : Record} (hr : IsLastFile records p r) (hr' : IsLastFile records' p r') :
    r.size = r'.size := by
  have hmem := hr.mem
  have hmem' := hperm.mem_iff.2 hr'.mem
  obtain ⟨-, -, -, hfile, hplace, -⟩ := hr
  obtain ⟨-, -, -, hfile', hplace', -⟩ := hr'
  exact hfiles r hmem r' hmem' hfile hfile' (hplace.trans hplace'.symm)

/-- What a listing and a rearranged one describe at one place is alike.  Two files there have
the sizes of the last records, which may be different ones. -/
theorem Described.map_bare_eq {found found' : Option View} {name : String}
    (h : Described records p found) (h' : Described records' p found')
    (hperm : records.Perm records') (hfiles : FilesAgree records)
    (hnode : ∀ v, found = some v → v.Canonical ∧ v.name = name)
    (hnode' : ∀ v, found' = some v → v.Canonical ∧ v.name = name) :
    found.map View.bare = found'.map View.bare := by
  cases found with
  | none =>
      cases found' with
      | none => rfl
      | some w => exact absurd ((mentions_perm hperm).2 h'.1) h
  | some v =>
      cases found' with
      | none => exact absurd ((mentions_perm hperm).1 h.1) h'
      | some w =>
          obtain ⟨-, hkind, hsize⟩ := h
          obtain ⟨-, hkind', hsize'⟩ := h'
          obtain ⟨hcanonical, hname⟩ := hnode v rfl
          obtain ⟨hcanonical', hname'⟩ := hnode' w rfl
          have hkinds : v.isDirectory = w.isDirectory := by
            rw [Bool.eq_iff_iff, hkind, hkind', makesDirectory_perm hperm]
          refine congrArg some (hcanonical.bare_eq hcanonical' (hname.trans hname'.symm) hkinds ?_)
          intro hfile
          obtain ⟨r, hr, hv⟩ := hsize hfile
          obtain ⟨r', hr', hw⟩ := hsize' (hkinds ▸ hfile)
          rw [hv, hw, hfiles.size_eq hperm hr hr']

/-- The forests of a listing and of a rearranged one agree at all places. -/
theorem agree_materializeForest (hperm : records.Perm records') (hfiles : FilesAgree records) :
    (materializeForest records).Agree (materializeForest records') := by
  intro p
  by_cases hp : p = []
  · subst hp
    rfl
  · exact (described_materializeForest records hp).map_bare_eq
      (described_materializeForest records' hp) hperm hfiles
      (fun _ hv => (canonical_materializeForest records).follow? hp hv)
      (fun _ hw => (canonical_materializeForest records').follow? hp hw)

end Rearranged

/-! ## Rearranged listings -/

/-- **The order of a listing affects only the order of siblings.**  If the files at one
place have one size, a rearranged listing has roots of the same names, and roots of one
name are the same up to the order of children at every level. -/
theorem same_materialize_of_perm {records records' : List Record}
    (hperm : records.Perm records')
    (hsizes : ∀ r ∈ records, ∀ r' ∈ records, r.isDirectory = false → r'.isDirectory = false →
      Path.components r.path = Path.components r'.path → r.size = r'.size) :
    ((materialize records).map View.name).Nodup ∧
      ((materialize records).map View.name).Perm ((materialize records').map View.name) ∧
      ∀ v ∈ materialize records, ∀ w ∈ materialize records', v.name = w.name →
        v.same w = true := by
  have hagree := agree_materializeForest hperm hsizes
  have hcanonical := canonical_materializeForest records
  have hcanonical' := canonical_materializeForest records'
  unfold materialize
  rw [hcanonical.map_name, hcanonical'.map_name]
  refine ⟨hcanonical.nodup, hagree.map_fst_perm hcanonical hcanonical', ?_⟩
  intro v hv w hw hname
  obtain ⟨⟨key, v⟩, hentry, rfl⟩ := List.mem_map.1 hv
  obtain ⟨⟨key', w⟩, hentry', rfl⟩ := List.mem_map.1 hw
  obtain rfl : key = key' :=
    (hcanonical.keys _ hentry).trans (hname.trans (hcanonical'.keys _ hentry').symm)
  obtain ⟨x, hx, hbare, hbelow⟩ :=
    hagree.counterpart (Keyed.lookup_of_mem hcanonical.nodup hentry)
  obtain rfl : w = x :=
    Option.some.inj ((Keyed.lookup_of_mem hcanonical'.nodup hentry').symm.trans hx)
  exact (hcanonical.nodes _ hentry).same_of_agree (hcanonical'.nodes _ hentry') hbare hbelow

/-- A file that becomes a directory in the one order and never was a file in the other, a
directory that comes before or after its member, and a file that is given twice. -/
theorem same_materialize_of_perm_promoted :
    let records := [Record.file "a" 3, Record.file "b" 7, Record.directory "a/y",
      Record.file "./a/x" 1, Record.file "a/y/z" 2, Record.file "b/" 7]
    let records' := [Record.file "b/" 7, Record.file "./a/x" 1, Record.file "a/y/z" 2,
      Record.directory "a/y", Record.file "b" 7, Record.file "a" 3]
    (materialize records).map (fun v => (v.name, v.children.map Prod.fst)) =
        [("a", ["y", "x"]), ("b", [])] ∧
      (materialize records').map (fun v => (v.name, v.children.map Prod.fst)) =
        [("b", []), ("a", ["x", "y"])] ∧
      ∀ v ∈ materialize records, ∀ w ∈ materialize records', v.name = w.name →
        v.same w = true := by
  intro records records'
  have hperm : records.Perm records' := by decide
  have hsizes : ∀ r ∈ records, ∀ r' ∈ records, r.isDirectory = false →
      r'.isDirectory = false → Path.components r.path = Path.components r'.path →
      r.size = r'.size := by decide
  exact ⟨by rfl, by rfl, (same_materialize_of_perm hperm hsizes).2.2⟩

end ContentPreview
