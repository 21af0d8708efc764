import ContentPreview.Proofs.Loop
import ContentPreview.Proofs.Path
import ContentPreview.Proofs.Tree.Listing

/-!
# Names of members and the tree

The name of a member is stripped before it becomes the path of a record.  Separators go
from its front, and then, for as long as there is one, a `./` step with the separators
behind it.  The loop ends, since every turn shortens the name, and each of its turns keeps
what the name denotes; so it comes to the same as dropping separators and `./` steps in any
order.

What is dropped names nothing, and the tree of a listing depends on the components of a
path only.  So it does not show in the tree whether the names were stripped.  A name that is
dropped altogether has no components, and a record without components leaves no trace.

## Main definitions

* `Path.stripTurn` — one turn of the loop.

## Main results

* `endsAfter_dropRootSteps` — the loop ends, with the stripped name.
* `materialize_filterMap` — a listing in which records stand for others at their places.
* `normalize_invisible` — what the stripped name is, and that the tree does not show it.
-/

namespace ContentPreview

namespace Path

/-! ## The loop -/

/-- One turn of the loop: a `./` step goes, and the separators behind it. -/
def stripTurn : List Char → Option (List Char)
  | '.' :: '/' :: rest => some (rest.dropWhile (· == separator))
  | _ => none

theorem stripTurn_eq_some {name next : List Char} (h : stripTurn name = some next) :
    ∃ rest, name = '.' :: '/' :: rest ∧ next = rest.dropWhile (· == separator) := by
  unfold stripTurn at h
  split at h
  · exact ⟨_, rfl, (Option.some.inj h).symm⟩
  · cases h

/-- Every turn shortens the name. -/
theorem length_stripTurn {name next : List Char} (h : stripTurn name = some next) :
    next.length < name.length := by
  obtain ⟨rest, rfl, rfl⟩ := stripTurn_eq_some h
  have hle := (List.dropWhile_sublist (l := rest) (· == separator)).length_le
  simp only [List.length_cons]
  omega

theorem dropRootSteps_dropWhile (name : List Char) :
    dropRootSteps (name.dropWhile (· == separator)) = dropRootSteps name := by
  induction name with
  | nil => rfl
  | cons c rest ih =>
      by_cases hc : c = '/'
      · subst hc
        rw [List.dropWhile_cons_of_pos (by simp [separator]), ih, dropRootSteps]
      · rw [List.dropWhile_cons_of_neg (by simpa [separator] using hc)]

/-- Every turn keeps what the name comes to. -/
theorem dropRootSteps_stripTurn {name next : List Char} (h : stripTurn name = some next) :
    dropRootSteps next = dropRootSteps name := by
  obtain ⟨rest, rfl, rfl⟩ := stripTurn_eq_some h
  rw [dropRootSteps_dropWhile, dropRootSteps]

/-- Behind separators that were dropped there is none. -/
theorem dropWhile_ne_separator (name rest : List Char) :
    name.dropWhile (· == separator) ≠ '/' :: rest := by
  intro h
  have hhead := List.head?_dropWhile_not (· == separator) name
  rw [h] at hhead
  simp [separator] at hhead

/-- A name at which the loop is over is stripped. -/
theorem dropRootSteps_eq_self {name : List Char} (hfront : ∀ rest, name ≠ '/' :: rest)
    (hturn : stripTurn name = none) : dropRootSteps name = name := by
  unfold dropRootSteps
  split
  · exact absurd rfl (hfront _)
  · cases hturn
  · rfl

/-- The loop ends with the stripped name. -/
theorem endsAfter_dropRootSteps (name : List Char) :
    ∃ turns, EndsAfter stripTurn turns (name.dropWhile (· == separator)) (dropRootSteps name) := by
  obtain ⟨turns, last, hend⟩ := exists_endsAfter List.length
    (fun _ _ => length_stripTurn) (name.dropWhile (· == separator))
  obtain ⟨hfront, hkept⟩ := hend.keeps
    (P := fun left => (∀ rest, left ≠ '/' :: rest) ∧ dropRootSteps left = dropRootSteps name)
    (by
      rintro left next h ⟨-, hleft⟩
      refine ⟨?_, (dropRootSteps_stripTurn h).trans hleft⟩
      obtain ⟨rest, -, rfl⟩ := stripTurn_eq_some h
      exact dropWhile_ne_separator rest)
    ⟨dropWhile_ne_separator name, dropRootSteps_dropWhile name⟩
  rw [dropRootSteps_eq_self hfront hend.turn_eq_none] at hkept
  exact ⟨turns, hkept ▸ hend⟩

theorem normalize_eq (raw : String) :
    normalize raw = if dropRootSteps raw.toList = [] ∨ dropRootSteps raw.toList = ['.'] then none
      else some (String.ofList (dropRootSteps raw.toList)) := by
  unfold normalize
  split
  · rename_i hempty
    rw [if_pos (.inl hempty)]
  · rename_i hdot
    rw [if_pos (.inr hdot)]
  · rename_i hempty hdot
    rw [if_neg (not_or.2 ⟨hempty, hdot⟩)]

/-! ## Components -/

theorem components_eq_nil_iff {path : String} :
    components path = [] ↔ ∀ c ∈ path.toList.splitOn '/', c = [] ∨ c = ['.'] := by
  unfold components parts
  rw [List.map_eq_nil_iff, List.filter_eq_nil_iff]
  refine forall₂_congr fun c _ => ?_
  simp [isProper, or_iff_not_imp_left]

theorem endsInSeparator_iff {path : String} :
    Record.endsInSeparator path = true ↔ ['/'] <:+ path.toList := by
  unfold Record.endsInSeparator
  rw [beq_iff_eq, List.getLast?_eq_some_iff]
  exact exists_congr fun front => eq_comm

end Path

/-! ## Listings -/

section Listings

variable {α : Type} {kept : α → Option Record} {record : α → Record}

/-- A record leaves in a forest what any record of its kind and size at its place leaves. -/
theorem Forest.insert_congr {r r' : Record}
    (hplace : Path.components r.path = Path.components r'.path) (hsize : r.size = r'.size)
    (hkind : r.isDirectory = r'.isDirectory) (level : Forest) :
    level.insert r = level.insert r' := by
  unfold Forest.insert
  rw [hplace, Forest.place_congr r r' hkind hsize]

/-- The tree of a listing stays the same if records are replaced by others of their kind and
size at their places, and left out if they have no place. -/
theorem materialize_filterMap
    (hnone : ∀ a, kept a = none → Path.components (record a).path = [])
    (hsome : ∀ a r, kept a = some r → Path.components r.path = Path.components (record a).path ∧
      r.size = (record a).size ∧ r.isDirectory = (record a).isDirectory)
    (entries : List α) :
    materialize (entries.filterMap kept) = materialize (entries.map record) := by
  unfold materialize materializeForest
  rw [List.foldl_filterMap, List.foldl_map]
  congr 2
  funext level a
  cases hkept : kept a with
  | none =>
      show level = level.insert (record a)
      unfold Forest.insert
      rw [hnone a hkept, Forest.place]
  | some r =>
      obtain ⟨hplace, hsize, hkind⟩ := hsome a r hkept
      exact Forest.insert_congr hplace hsize hkind level

/-- The tree of a listing does not show whether names were stripped, if the record of an entry
is at the place that the name denotes and depends otherwise on the end of the name only. -/
theorem materialize_normalize (build : String → UInt64 → Bool → Record)
    (hplace : ∀ name size isDirectory,
      Path.components (build name size isDirectory).path = Path.components name)
    (halike : ∀ {path name size isDirectory},
      Record.endsInSeparator path = Record.endsInSeparator name →
        (build path size isDirectory).size = (build name size isDirectory).size ∧
          (build path size isDirectory).isDirectory = (build name size isDirectory).isDirectory)
    (entries : List (String × UInt64 × Bool)) :
    materialize (entries.filterMap fun (name, size, isDirectory) =>
        (Path.normalize name).map fun path => build path size isDirectory) =
      materialize (entries.map fun (name, size, isDirectory) => build name size isDirectory) := by
  apply materialize_filterMap
  · rintro ⟨name, size, isDirectory⟩ hnone
    rw [hplace]
    exact Path.normalize_eq_none_iff.1 (Option.map_eq_none_iff.1 hnone)
  · rintro ⟨name, size, isDirectory⟩ r hsome
    obtain ⟨path, hpath, rfl⟩ := Option.map_eq_some_iff.1 hsome
    refine ⟨?_, halike (Path.endsInSeparator_of_normalize hpath)⟩
    rw [hplace, hplace, Path.components_of_normalize hpath]

end Listings

/-- **What is stripped from a name does not show.**  A name is dropped exactly if each of its
components is empty or `.`.  Otherwise what is kept of it is an end of the name, with neither a
separator nor a `./` step at its front, which ends in a separator exactly if the name does and
has the components of the name in their order.  The loop that strips a name ends on every name,
and what it leaves is kept unless it is empty or `.`.  So the tree of any listing of kept names
is the tree of the names as they came, with the same sizes and kinds, whether the kind is what
the entry says or is also read off the end of the name. -/
theorem normalize_invisible (raw : String) (entries : List (String × UInt64 × Bool)) :
    (Path.normalize raw = none ↔ ∀ c ∈ raw.toList.splitOn '/', c = [] ∨ c = ['.']) ∧
      (∀ path, Path.normalize raw = some path →
        path.toList <:+ raw.toList ∧ ¬ ['/'] <+: path.toList ∧ ¬ ['.', '/'] <+: path.toList ∧
          (['/'] <:+ path.toList ↔ ['/'] <:+ raw.toList) ∧
          Path.components path = Path.components raw) ∧
      (∃ turns left,
        EndsAfter Path.stripTurn turns (raw.toList.dropWhile (· == Path.separator)) left ∧
          Path.normalize raw =
            if left = [] ∨ left = ['.'] then none else some (String.ofList left)) ∧
      materialize (entries.filterMap fun (name, size, isDirectory) =>
          (Path.normalize name).map fun path => ⟨path, size, isDirectory⟩) =
        materialize (entries.map fun (name, size, isDirectory) => ⟨name, size, isDirectory⟩) ∧
      materialize (entries.filterMap fun (name, size, isDirectory) =>
          (Path.normalize name).map fun path => .ofRaw path size isDirectory) =
        materialize
          (entries.map fun (name, size, isDirectory) => .ofRaw name size isDirectory) := by
  refine ⟨?_, ?_, ?_, ?_, ?_⟩
  · rw [Path.normalize_eq_none_iff, Path.components_eq_nil_iff]
  · intro path hpath
    obtain ⟨hleft, -, -⟩ := Path.toList_of_normalize hpath
    obtain ⟨hseparator, hstep⟩ := Path.dropRootSteps_front raw.toList
    rw [← hleft] at hseparator hstep
    refine ⟨hleft ▸ Path.dropRootSteps_suffix raw.toList, ?_, ?_, ?_,
      Path.components_of_normalize hpath⟩
    · rintro ⟨rest, hrest⟩
      exact hseparator rest hrest.symm
    · rintro ⟨rest, hrest⟩
      exact hstep rest hrest.symm
    · rw [← Path.endsInSeparator_iff, ← Path.endsInSeparator_iff,
        Path.endsInSeparator_of_normalize hpath]
  · obtain ⟨turns, hend⟩ := Path.endsAfter_dropRootSteps raw.toList
    exact ⟨turns, _, hend, Path.normalize_eq raw⟩
  · exact materialize_normalize Record.mk (fun _ _ _ => rfl) (fun _ => ⟨rfl, rfl⟩) entries
  · refine materialize_normalize Record.ofRaw Path.components_ofRaw ?_ entries
    intro path name size isDirectory hend
    have hkind : (Record.ofRaw path size isDirectory).isDirectory =
        (Record.ofRaw name size isDirectory).isDirectory := by
      rw [Record.isDirectory_ofRaw, Record.isDirectory_ofRaw, hend]
    exact ⟨by rw [Record.size_ofRaw, Record.size_ofRaw, hkind], hkind⟩

/-- A name with steps and separators mixed at its front, and components behind them that only
begin with a point. -/
theorem normalize_invisible_points :
    let path := "..a//.b/./"
    Path.normalize "/.//./..a//.b/./" = some path ∧ ¬ ['.', '/'] <+: path.toList ∧
      (['/'] <:+ path.toList ↔ ['/'] <:+ "/.//./..a//.b/./".toList) ∧
      Path.components path = Path.components "/.//./..a//.b/./" := by
  intro path
  have hpath : Path.normalize "/.//./..a//.b/./" = some path := by decide
  obtain ⟨-, hkept, -⟩ := normalize_invisible "/.//./..a//.b/./" []
  obtain ⟨-, -, hstep, hend, hplace⟩ := hkept path hpath
  exact ⟨hpath, hstep, hend, hplace⟩

end ContentPreview
