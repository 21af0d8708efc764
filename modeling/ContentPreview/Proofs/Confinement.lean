import ContentPreview.Proofs.Path
import ContentPreview.Source

/-!
# No way out of a directory

An identifier is checked by its components and then put behind the directory as raw text.
That the two views agree is what keeps a source inside its directory: the joined path names
the components of the directory and then those of the identifier, however both of them are
spelled, and it starts where the directory starts.

The check meets a root exactly in a text that starts with a separator, and a step back
exactly where the text has one.  The names of an identifier are then its proper parts, as a
record's are: points are left out, also the one that a path may start with.

A step back is refused wherever it stands in an identifier.  So the components of an
identifier only ever lead on, and the joined path resolves to the place of the directory
with these components behind it.  Steps back in the path of the directory itself do no
harm: they are resolved before the first component of an identifier is reached.

Resolving is done on the text alone; no file system is asked.

## Main definitions

* `Path.resolve` — the place that a path denotes, without steps back that can be undone.
* `Path.IsAtOrBelow` — places that are reached from a directory without a step back.

## Main results

* `escapes_iff` — the check of the components as one of the text.
* `components_joinPath`, `isAbsolute_joinPath` — what a joined path names, and where it starts.
* `resolve_of_components_eq` — components without a step back lead on from any place.
* `pathOf_confined` — which identifiers are refused, and where the others lead.
-/

namespace ContentPreview

namespace Path

/-- Whether a path starts at the root of the file system. -/
def isAbsolute (path : String) : Bool := path.toList.head? == some separator

/-- The component that leads back to where the one in front of it started. -/
def stepBack : String := ".."

/-- The place after one more component.  With nothing to go back over, a step back has no
effect at the root of the file system, and is kept where a path starts anywhere else. -/
def resolveStep (absolute : Bool) (reached : List String) (component : String) : List String :=
  if component = stepBack then
    match reached.getLast? with
    | none => if absolute then [] else [stepBack]
    | some last => if last = stepBack then reached ++ [stepBack] else reached.dropLast
  else reached ++ [component]

/-- The place that a path denotes, whatever is there. -/
def resolve (path : String) : List String :=
  (components path).foldl (resolveStep (isAbsolute path)) []

/-- The path starts where the directory does, and goes on from its place without a step
back. -/
def IsAtOrBelow (directory path : String) : Prop :=
  isAbsolute path = isAbsolute directory ∧
    ∃ rest, resolve path = resolve directory ++ rest ∧ stepBack ∉ rest

/-! ## Components of a path -/

theorem isAbsolute_iff {path : String} :
    isAbsolute path = true ↔ path.toList.head? = some '/' := by
  simp [isAbsolute, separator]

/-- The components are those steps that do not stay where they are. -/
theorem components_eq_filter_steps (path : String) :
    components path = (FileTree.steps path).filter fun step => step ≠ "" && step ≠ "." := by
  unfold components parts FileTree.steps
  rw [List.filter_map]
  refine congrArg (List.map String.ofList) (List.filter_congr fun chars _ => ?_)
  have hempty : String.ofList chars = "" ↔ chars = [] := String.ofList_inj
  have hdot : String.ofList chars = "." ↔ chars = ['.'] := String.ofList_inj
  simp [isProper, hempty, hdot]

/-- A step back is a component as it stands. -/
theorem stepBack_mem_components_iff {path : String} :
    stepBack ∈ components path ↔ stepBack ∈ FileTree.steps path := by
  rw [components_eq_filter_steps, List.mem_filter]
  exact and_iff_left (by decide)

/-! ## Joined paths -/

theorem toList_joinPath (root path : String) :
    (joinPath root path).toList = root.toList ++ path.toList ∧
        (root.toList = [] ∨ ∃ front, root.toList = front ++ [separator]) ∨
      root.toList ≠ [] ∧ (joinPath root path).toList = root.toList ++ separator :: path.toList := by
  unfold joinPath
  by_cases hroot : root.isEmpty ∨ root.toList.getLast? = some '/'
  · rw [if_pos hroot]
    refine Or.inl ⟨String.toList_append, ?_⟩
    rcases hroot with hempty | hlast
    · exact Or.inl (by simpa using hempty)
    · obtain ⟨front, hfront⟩ := List.getLast?_eq_some_iff.1 hlast
      exact Or.inr ⟨front, hfront⟩
  · rw [if_neg hroot]
    simp only [not_or] at hroot
    refine Or.inr ⟨by simpa using hroot.1, ?_⟩
    simp [separator]

/-- A joined path names what the directory names, and then what the other path names. -/
theorem components_joinPath (root path : String) :
    components (joinPath root path) = components root ++ components path := by
  have hnothing : parts [] = [] := rfl
  have hparts : parts (joinPath root path).toList = parts root.toList ++ parts path.toList := by
    rcases toList_joinPath root path with ⟨hjoined, hempty | ⟨front, hfront⟩⟩ | ⟨-, hjoined⟩
    · rw [hjoined, hempty, hnothing, List.nil_append, List.nil_append]
    · rw [hjoined, hfront, List.append_assoc, List.singleton_append, parts_append_separator,
        parts_append_separator, hnothing, List.append_nil]
    · rw [hjoined, parts_append_separator]
  unfold components
  rw [hparts, List.map_append]

/-- A path that does not start at the root of the file system starts where the directory
does once it is put behind it. -/
theorem isAbsolute_joinPath {path : String} (h : isAbsolute path = false) (root : String) :
    isAbsolute (joinPath root path) = isAbsolute root := by
  have hhead : root.toList ≠ [] →
      ∀ behind : List Char, (root.toList ++ behind).head? = root.toList.head? := by
    intro hne behind
    rw [List.head?_append, List.head?_eq_some_head hne]
    rfl
  unfold isAbsolute at h ⊢
  rcases toList_joinPath root path with ⟨hjoined, hempty | ⟨front, hfront⟩⟩ | ⟨hne, hjoined⟩
  · rw [hjoined, hempty, List.nil_append, h]
    rfl
  · rw [hjoined, hhead (by simp [hfront])]
  · rw [hjoined, hhead hne]

/-! ## Resolving -/

/-- Components without a step back lead on from any place. -/
theorem foldl_resolveStep {components : List String} (h : stepBack ∉ components)
    (absolute : Bool) (reached : List String) :
    components.foldl (resolveStep absolute) reached = reached ++ components := by
  induction components generalizing reached with
  | nil => simp
  | cons component rest ih =>
      have hcomponent : component ≠ stepBack := fun heq => h (heq ▸ List.mem_cons_self)
      have hstep : resolveStep absolute reached component = reached ++ [component] :=
        if_neg hcomponent
      rw [List.foldl_cons, hstep, ih fun hrest => h (List.mem_cons_of_mem _ hrest)]
      simp

/-- A path that starts as another one does and names more without a step back resolves to
what the other one resolves to, and then leads on. -/
theorem resolve_of_components_eq {directory path : String} {more : List String}
    (hstart : isAbsolute path = isAbsolute directory)
    (hcomponents : components path = components directory ++ more) (hmore : stepBack ∉ more) :
    resolve path = resolve directory ++ more := by
  unfold resolve
  rw [hcomponents, List.foldl_append, hstart, foldl_resolveStep hmore]

end Path

open ContentPreview.Path

/-! ## Identifiers -/

namespace PathComponent

variable {path : String}

theorem ofStep?_ne_root (step : String) : ofStep? step ≠ some root := by
  unfold ofStep?
  split
  · exact nofun
  · split <;> exact nofun

theorem ofStep?_eq_parent_iff {step : String} : ofStep? step = some parent ↔ step = stepBack := by
  by_cases hback : step = stepBack
  · subst hback
    exact iff_of_true (by decide) rfl
  · refine iff_of_false ?_ hback
    unfold ofStep?
    rw [if_neg (c := step = "..") hback]
    split <;> exact nofun

/-- In front of the names stands the root, or the point that a path starts with. -/
theorem mem_front_iff {component : PathComponent} :
    component ∈ front path ↔
      component = root ∧ isAbsolute path = true ∨
        component = current ∧ isAbsolute path ≠ true ∧
          (FileTree.steps path).head? = some "." := by
  rw [ne_eq, isAbsolute_iff]
  unfold front
  by_cases habsolute : path.toList.head? = some '/'
  · simp [habsolute]
  · by_cases hpoint : (FileTree.steps path).head? = some "." <;> simp [habsolute, hpoint]

/-- The root is a component of the paths that start there. -/
theorem root_mem_parse_iff : root ∈ parse path ↔ isAbsolute path = true := by
  have hsteps : root ∉ (FileTree.steps path).filterMap ofStep? := by
    rw [List.mem_filterMap]
    rintro ⟨step, -, hstep⟩
    exact ofStep?_ne_root step hstep
  unfold parse
  rw [List.mem_append, or_iff_left hsteps, mem_front_iff]
  simp

/-- A step back is a component wherever it stands. -/
theorem parent_mem_parse_iff : parent ∈ parse path ↔ stepBack ∈ FileTree.steps path := by
  have hfront : parent ∉ front path := by simp [mem_front_iff]
  unfold parse
  rw [List.mem_append, or_iff_right hfront, List.mem_filterMap]
  simp only [ofStep?_eq_parent_iff, exists_eq_right]

end PathComponent

/-- The check of the components is one of the text: a separator in front, or a step back. -/
theorem escapes_iff {id : BitstreamId} :
    escapes id = true ↔ isAbsolute id = true ∨ stepBack ∈ FileTree.steps id := by
  rw [← PathComponent.root_mem_parse_iff, ← PathComponent.parent_mem_parse_iff]
  unfold escapes
  rw [List.any_eq_true]
  constructor
  · rintro ⟨component, hmem, hout⟩
    cases component with
    | root => exact Or.inl hmem
    | parent => exact Or.inr hmem
    | current => cases hout
    | name name => cases hout
  · rintro (hroot | hparent)
    · exact ⟨_, hroot, rfl⟩
    · exact ⟨_, hparent, rfl⟩

/-- **No identifier leads out of the directory.**  An identifier is refused exactly if it
starts with a separator or has a step back among its steps, and the refusal names it.
Any other one gives a path that starts where the directory starts, that names the
components of the directory and then those of the identifier, and that resolves to what
the directory resolves to and then these components: a place in the directory, or the
directory itself.  This holds for every spelling of both. -/
theorem pathOf_confined (root : String) (id : BitstreamId) :
    let refused := id.toList.head? = some '/' ∨ ".." ∈ FileTree.steps id
    (pathOf root id = .error (escapeMessage id) ↔ refused) ∧
      ((∃ path, pathOf root id = .ok path) ↔ ¬ refused) ∧
      ∀ path, pathOf root id = .ok path →
        (isAbsolute path = true ↔ isAbsolute root = true) ∧
          components path = components root ++ components id ∧
          ".." ∉ components id ∧
          resolve path = resolve root ++ components id ∧ IsAtOrBelow root path := by
  intro refused
  have hescapes : escapes id = true ↔ refused := by
    rw [escapes_iff, isAbsolute_iff]
    rfl
  unfold pathOf
  by_cases hid : escapes id = true
  · rw [if_pos hid]
    refine ⟨iff_of_true rfl (hescapes.1 hid), iff_of_false ?_ ?_, ?_⟩
    · rintro ⟨path, hpath⟩
      cases hpath
    · exact not_not_intro (hescapes.1 hid)
    · intro path hpath
      cases hpath
  · rw [if_neg hid]
    have hkept : ¬ refused := fun h => hid (hescapes.2 h)
    refine ⟨iff_of_false nofun hkept, iff_of_true ⟨_, rfl⟩ hkept, ?_⟩
    rintro path hpath
    obtain rfl := Except.ok.inj hpath
    have hrelative : isAbsolute id = false := by
      rw [← Bool.not_eq_true, isAbsolute_iff]
      exact fun h => hkept (Or.inl h)
    have hforth : stepBack ∉ components id := by
      rw [stepBack_mem_components_iff]
      exact fun h => hkept (Or.inr h)
    have hstart := isAbsolute_joinPath hrelative root
    have hcomponents := components_joinPath root id
    have hplace := resolve_of_components_eq hstart hcomponents hforth
    refine ⟨?_, hcomponents, hforth, hplace, hstart, _, hplace, hforth⟩
    rw [hstart]

/-- A relative directory with a step back and separators at its end, and an identifier with
separators, `.` steps and names that only look like a step back. -/
theorem pathOf_confined_spellings :
    let root := "../srv/x/..//"
    let id := ".//..a/./b..//..."
    pathOf root id = .ok "../srv/x/..//.//..a/./b..//..." ∧
      resolve "../srv/x/..//.//..a/./b..//..." = ["..", "srv", "..a", "b..", "..."] ∧
      IsAtOrBelow root "../srv/x/..//.//..a/./b..//..." ∧
      pathOf "/srv" "a/b/.." = .error "bitstream id 'a/b/..' is not below the source root" := by
  intro root id
  have hpath : pathOf root id = .ok "../srv/x/..//.//..a/./b..//..." := by
    unfold pathOf
    rw [if_neg (by decide)]
    exact congrArg Except.ok (by decide)
  obtain ⟨-, -, hkept⟩ := pathOf_confined root id
  obtain ⟨-, -, -, hplace, hbelow⟩ := hkept _ hpath
  have hroot : resolve root = ["..", "srv"] := by decide
  have hid : components id = ["..a", "b..", "..."] := by decide
  have hrefused := (pathOf_confined "/srv" "a/b/..").1.2 (Or.inr (by decide))
  rw [hroot, hid] at hplace
  exact ⟨hpath, hplace, hbelow, hrefused⟩

end ContentPreview
