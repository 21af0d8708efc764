import ContentPreview.Record

/-!
# Paths and the places that they name

A path names the components between its separators, the empty ones and `.` aside.  So
a separator more or less makes no difference anywhere, and neither does a `.` step.  In
particular a path that was cut at its end names what it named before.

The name of a member is stripped of separators and `./` steps at its front, and is
dropped if nothing is left.  What is left begins with a component: what stands in front
of the first separator is not empty, and not `.` either.

## Main results

* `isDirectory_ofRaw`, `size_ofRaw`, `components_ofRaw` — the record of a raw path: its kind, its
  size, and that it is at the place that the path names.
* `exists_ne_separator_of_normalize`, `components_ne_nil_of_normalize` — the path that is
  kept of the name of a member holds more than separators, and names a place.
* `components_of_normalize`, `endsInSeparator_of_normalize`, `normalize_eq_none_iff` — the
  path is at the place that the name names, and ends as the name does; there is none
  exactly if the name names no place.
-/

namespace ContentPreview

namespace Record

variable (path : String) (size : UInt64) (isDirectory : Bool)

theorem isDirectory_ofRaw :
    (ofRaw path size isDirectory).isDirectory = (isDirectory || endsInSeparator path) := by
  unfold ofRaw
  cases isDirectory || endsInSeparator path <;> rfl

theorem size_ofRaw :
    (ofRaw path size isDirectory).size =
      if (ofRaw path size isDirectory).isDirectory then 0 else size := by
  rw [isDirectory_ofRaw]
  unfold ofRaw
  cases isDirectory || endsInSeparator path <;> rfl

end Record

namespace Path

theorem parts_append_separator (before after : List Char) :
    parts (before ++ separator :: after) = parts before ++ parts after := by
  unfold parts
  rw [List.splitOn_append_cons_self, List.filter_append]

theorem parts_dropTrailing (path : List Char) :
    parts (Text.dropTrailing separator path) = parts path := by
  have hback (back : List Char) :
      parts (back.dropWhile (· == separator)).reverse = parts back.reverse := by
    induction back with
    | nil => rfl
    | cons c back ih =>
        by_cases hc : c = separator
        · subst hc
          have hnothing : parts [] = [] := rfl
          rw [List.dropWhile_cons_of_pos (by simp), ih, List.reverse_cons, parts_append_separator,
            hnothing, List.append_nil]
        · rw [List.dropWhile_cons_of_neg (by simpa using hc)]
  have hpath := hback path.reverse
  rwa [List.reverse_reverse] at hpath

/-- The record of a raw path is at the place that the path names. -/
theorem components_ofRaw (path : String) (size : UInt64) (isDirectory : Bool) :
    components (Record.ofRaw path size isDirectory).path = components path := by
  unfold Record.ofRaw
  by_cases hdir : (isDirectory || Record.endsInSeparator path) = true
  · rw [if_pos hdir]
    unfold Record.directory components
    rw [String.toList_ofList, parts_dropTrailing]
  · rw [if_neg hdir]
    rfl

/-- A path that does not begin with a separator or a `.` step begins with a component. -/
theorem parts_ne_nil {path : List Char} (hempty : path ≠ []) (hdot : path ≠ ['.'])
    (hseparator : ∀ rest, path ≠ '/' :: rest) (hstep : ∀ rest, path ≠ '.' :: '/' :: rest) :
    parts path ≠ [] := by
  have hjoined : [separator].intercalate (path.splitOn separator) = path :=
    List.intercalate_splitOn separator
  cases hsplit : path.splitOn separator with
  | nil => exact absurd hsplit (List.splitOn_ne_nil separator path)
  | cons first others =>
      have hfirst : isProper first = true := by
        rw [hsplit] at hjoined
        cases others with
        | nil =>
            have hwhole : first = path := by simpa using hjoined
            subst hwhole
            simp [isProper, hempty, hdot]
        | cons next others =>
            rw [List.intercalate_cons_cons] at hjoined
            have hnonempty : first ≠ [] := by
              rintro rfl
              exact hseparator _ hjoined.symm
            have hproper : first ≠ ['.'] := by
              rintro rfl
              exact hstep _ hjoined.symm
            simp [isProper, hnonempty, hproper]
      have hmem : first ∈ parts path := by
        unfold parts
        rw [hsplit, List.filter_cons_of_pos hfirst]
        exact List.mem_cons_self
      exact List.ne_nil_of_mem hmem

/-- What is left of a name begins neither with a separator nor with a `.` step. -/
theorem dropRootSteps_front (name : List Char) :
    (∀ rest, dropRootSteps name ≠ '/' :: rest) ∧
      ∀ rest, dropRootSteps name ≠ '.' :: '/' :: rest := by
  fun_induction dropRootSteps name with
  | case1 rest ih => exact ih
  | case2 rest ih => exact ih
  | case3 path hseparator hstep => exact ⟨hseparator, hstep⟩

/-- What is dropped in front of a name names nothing. -/
theorem parts_dropRootSteps (name : List Char) : parts (dropRootSteps name) = parts name := by
  fun_induction dropRootSteps name with
  | case1 rest ih => rw [ih]; exact (parts_append_separator [] rest).symm
  | case2 rest ih => rw [ih]; exact (parts_append_separator ['.'] rest).symm
  | case3 path hseparator hstep => rfl

theorem dropRootSteps_suffix (name : List Char) : dropRootSteps name <:+ name := by
  fun_induction dropRootSteps name with
  | case1 rest ih => exact ih.trans (List.suffix_cons _ _)
  | case2 rest ih => exact ih.trans ((List.suffix_cons _ _).trans (List.suffix_cons _ _))
  | case3 path hseparator hstep => exact List.suffix_refl path

section Normalized

variable {raw path : String}

/-- A path that is kept of a name is what is left of it. -/
theorem toList_of_normalize (h : normalize raw = some path) :
    path.toList = dropRootSteps raw.toList ∧ path.toList ≠ [] ∧ path.toList ≠ ['.'] := by
  unfold normalize at h
  split at h
  · cases h
  · cases h
  · rename_i hempty hdot
    obtain rfl := Option.some.inj h
    rw [String.toList_ofList]
    exact ⟨rfl, hempty, hdot⟩

/-- A path that is kept of a name holds more than separators. -/
theorem exists_ne_separator_of_normalize (h : normalize raw = some path) :
    ∃ c ∈ path.toList, c ≠ separator := by
  obtain ⟨hseparator, -⟩ := dropRootSteps_front raw.toList
  obtain ⟨hleft, hempty, -⟩ := toList_of_normalize h
  cases hpath : path.toList with
  | nil => exact absurd hpath hempty
  | cons c rest =>
      refine ⟨c, List.mem_cons_self, ?_⟩
      rintro rfl
      exact hseparator rest (hleft ▸ hpath)

/-- A path that is kept of a name names a place. -/
theorem components_ne_nil_of_normalize (h : normalize raw = some path) :
    components path ≠ [] := by
  obtain ⟨hseparator, hstep⟩ := dropRootSteps_front raw.toList
  obtain ⟨hleft, hempty, hdot⟩ := toList_of_normalize h
  rw [← hleft] at hseparator hstep
  unfold components
  rw [ne_eq, List.map_eq_nil_iff]
  exact parts_ne_nil hempty hdot hseparator hstep

/-- A path that is kept of a name names the place of the name. -/
theorem components_of_normalize (h : normalize raw = some path) :
    components path = components raw := by
  unfold components
  rw [(toList_of_normalize h).1, parts_dropRootSteps]

/-- A path that is kept of a name ends as the name does. -/
theorem endsInSeparator_of_normalize (h : normalize raw = some path) :
    Record.endsInSeparator path = Record.endsInSeparator raw := by
  obtain ⟨hleft, hempty, -⟩ := toList_of_normalize h
  obtain ⟨front, hraw⟩ := dropRootSteps_suffix raw.toList
  have hlast : raw.toList.getLast? = path.toList.getLast? := by
    rw [← hraw, ← hleft, List.getLast?_append, List.getLast?_eq_some_getLast hempty]
    rfl
  unfold Record.endsInSeparator
  rw [hlast]

/-- A name is dropped exactly if it names no place. -/
theorem normalize_eq_none_iff : normalize raw = none ↔ components raw = [] := by
  constructor
  · intro hnone
    have hleft : parts (dropRootSteps raw.toList) = [] := by
      unfold normalize at hnone
      split at hnone
      · rename_i hempty
        rw [hempty]
        rfl
      · rename_i hdot
        rw [hdot]
        rfl
      · cases hnone
    unfold components
    rw [← parts_dropRootSteps, hleft, List.map_nil]
  · intro hplace
    cases hkept : normalize raw with
    | none => rfl
    | some path =>
        have hpath := components_ne_nil_of_normalize hkept
        rw [components_of_normalize hkept] at hpath
        exact absurd hplace hpath

end Normalized

end Path

end ContentPreview
