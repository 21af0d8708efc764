import ContentPreview.Proofs.Record
import ContentPreview.Proofs.Tree.Canonical

/-!
# Trees and flat listings are inverse

A tree is listed in preorder, one record for each node, with the names that lead
to the node joined to a path.  Materializing that listing gives the tree back,
with the order of siblings at every level, and so do its lines.

The induction is over canonical trees.  It needs to say what a listing does to a
forest that already holds something: the listing of a tree whose name is new
appends that tree (`foldl_preorder`).  For a directory, the records below it all
begin with its name, and what they do happens below the directory that its own
record has just put at the end (`foldl_below`).

## Main definitions

* `View.preorder`, `View.listing` — the nodes of a tree under their places, and
  the records of a list of roots.

## Main results

* `materializeLines_listing` — a canonical list of roots is given back by the
  lines of its listing, and every listing materializes to such roots.
-/

namespace ContentPreview

/-! ## Listing a tree -/

namespace View

mutual

/-- The nodes of a tree in preorder, each under the names that lead to it. -/
def preorder : View → List (List String × View)
  | ⟨name, content, size, isDirectory, children⟩ =>
    ([name], ⟨name, content, size, isDirectory, children⟩) :: preorderBelow name children

/-- The nodes below a node of the given name. -/
def preorderBelow (name : String) : List (String × View) → List (List String × View)
  | [] => []
  | (_, v) :: rest => (v.preorder.map fun e => (name :: e.1, e.2)) ++ preorderBelow name rest

end

/-- The record of a node at a place. -/
def record (place : List String) (v : View) : Record :=
  if v.isDirectory then .directory ("/".intercalate place)
  else .file ("/".intercalate place) v.size

/-- The records of a list of roots in preorder. -/
def listing (roots : List View) : List Record :=
  (roots.flatMap preorder).map fun e => record e.1 e.2

theorem preorderBelow_eq (name : String) (children : Forest) :
    preorderBelow name children =
      (children.flatMap fun e => e.2.preorder).map fun e => (name :: e.1, e.2) := by
  induction children with
  | nil => rfl
  | cons entry rest ih =>
      obtain ⟨key, v⟩ := entry
      rw [preorderBelow, ih, List.flatMap_cons, List.map_append]

theorem preorder_eq (v : View) :
    v.preorder = ([v.name], v) ::
      (v.children.flatMap fun e => e.2.preorder).map fun e => (v.name :: e.1, e.2) := by
  obtain ⟨name, content, size, isDirectory, children⟩ := v
  rw [preorder, preorderBelow_eq]

/-! ## The records of a canonical tree -/

/-- A node of a canonical tree stands at a place made of names, and if it is a
directory it has no size. -/
theorem Canonical.of_mem_preorder {v : View} (h : v.Canonical) {e : List String × View}
    (he : e ∈ v.preorder) :
    e.1 ≠ [] ∧ (∀ n ∈ e.1, IsName n) ∧ (e.2.isDirectory = true → e.2.size = 0) := by
  induction h generalizing e with
  | file name size hname =>
      rw [preorder_eq] at he
      simp only [View.file, List.flatMap_nil, List.map_nil, List.mem_singleton] at he
      subst he
      exact ⟨by simp, by simpa using hname, by simp⟩
  | directory name children hname hnodup hkeys hchildren ih =>
      rw [preorder_eq, List.mem_cons] at he
      rcases he with rfl | he
      · exact ⟨by simp, by simpa using hname, fun _ => rfl⟩
      · simp only [List.mem_map, List.mem_flatMap] at he
        obtain ⟨e', ⟨child, hchild, he'⟩, rfl⟩ := he
        obtain ⟨-, hnames, hsize⟩ := ih child hchild he'
        refine ⟨by simp, ?_, hsize⟩
        intro n hn
        rw [List.mem_cons] at hn
        rcases hn with rfl | hn
        · exact hname
        · exact hnames n hn

theorem endsInSeparator_intercalate {place : List String} (hne : place ≠ [])
    (h : ∀ n ∈ place, IsName n) : Record.endsInSeparator ("/".intercalate place) = false := by
  have hlast : ∃ c, ("/".intercalate place).toList.getLast? = some c ∧ c ≠ Path.separator := by
    induction place with
    | nil => exact absurd rfl hne
    | cons name rest ih =>
        cases rest with
        | nil =>
            have hname := h name List.mem_cons_self
            have hchars : name.toList ≠ [] := by simpa using hname.1
            rw [String.intercalate_singleton, List.getLast?_eq_some_getLast hchars]
            exact ⟨_, rfl, fun heq => hname.2.1 (heq ▸ List.getLast_mem hchars)⟩
        | cons next rest =>
            obtain ⟨c, hc, hne'⟩ := ih (by simp) fun n hn => h n (List.mem_cons_of_mem _ hn)
            refine ⟨c, ?_, hne'⟩
            rw [String.intercalate_cons_cons, String.toList_append, List.getLast?_append, hc]
            rfl
  obtain ⟨c, hc, hne'⟩ := hlast
  unfold Record.endsInSeparator
  rw [hc]
  simpa using hne'

theorem record_eq {place : List String} {v : View} (hne : place ≠ [])
    (h : ∀ n ∈ place, IsName n) (hsize : v.isDirectory = true → v.size = 0) :
    record place v = ⟨"/".intercalate place, v.size, v.isDirectory⟩ := by
  unfold record
  cases hdir : v.isDirectory with
  | true =>
      rw [if_pos rfl, hsize hdir]
      exact Record.directory_of_not_endsInSeparator (endsInSeparator_intercalate hne h)
  | false => rfl

theorem isNormal_record {place : List String} {v : View} (hne : place ≠ [])
    (h : ∀ n ∈ place, IsName n) (hsize : v.isDirectory = true → v.size = 0) :
    (record place v).IsNormal := by
  rw [record_eq hne h hsize]
  refine ⟨?_, endsInSeparator_intercalate hne h, hsize⟩
  intro hempty
  have hcomponents := Path.components_intercalate h
  rw [show "/".intercalate place = "" from hempty] at hcomponents
  exact hne hcomponents.symm

end View

/-! ## Placing a listing -/

namespace Forest

/-- A node of a tree, placed without what is below it. -/
def placeNode (level : Forest) (e : List String × View) : Forest :=
  place ⟨"", e.2.size, e.2.isDirectory⟩ e.1 level

/-- Only the kind and the size of a record count once its components are known. -/
theorem place_congr (r r' : Record) (hdir : r.isDirectory = r'.isDirectory)
    (hsize : r.size = r'.size) (cs : List String) : place r cs = place r' cs := by
  have hsettle (name : String) : settle name r = settle name r' := by
    funext found
    unfold settle
    rw [hdir, hsize]
  induction cs with
  | nil => rfl
  | cons c cs ih =>
      funext level
      cases cs with
      | nil => rw [place, place, hsettle]
      | cons next rest => rw [place, place, ih]

/-- Inserting the record of a node places the node. -/
theorem insert_record {names : List String} {v : View} (hne : names ≠ [])
    (h : ∀ n ∈ names, IsName n) (hsize : v.isDirectory = true → v.size = 0) (level : Forest) :
    insert level (View.record names v) = placeNode level (names, v) := by
  unfold insert placeNode
  rw [View.record_eq hne h hsize, Path.components_intercalate h]
  exact congrFun (place_congr ⟨"/".intercalate names, v.size, v.isDirectory⟩
    ⟨"", v.size, v.isDirectory⟩ rfl rfl names) level

theorem foldl_insert_record {nodes : List (List String × View)}
    (h : ∀ e ∈ nodes, e.1 ≠ [] ∧ (∀ n ∈ e.1, IsName n) ∧
      (e.2.isDirectory = true → e.2.size = 0)) (level : Forest) :
    (nodes.map fun e => View.record e.1 e.2).foldl insert level =
      nodes.foldl placeNode level := by
  induction nodes generalizing level with
  | nil => rfl
  | cons e nodes ih =>
      obtain ⟨hne, hnames, hsize⟩ := h e List.mem_cons_self
      rw [List.map_cons, List.foldl_cons, List.foldl_cons, insert_record hne hnames hsize]
      exact ih (fun e' he' => h e' (List.mem_cons_of_mem _ he')) _

/-- Nodes below a directory that stands at the end are placed in its children. -/
theorem foldl_below {name : String} {level : Forest} (hname : name ∉ level.map Prod.fst)
    (nodes : List (List String × View)) (hnodes : ∀ e ∈ nodes, e.1 ≠ []) (children : Forest) :
    (nodes.map fun e => (name :: e.1, e.2)).foldl placeNode
        (level ++ [(name, ⟨name, "", 0, true, children⟩)]) =
      level ++ [(name, ⟨name, "", 0, true, nodes.foldl placeNode children⟩)] := by
  induction nodes generalizing children with
  | nil => rfl
  | cons e nodes ih =>
      obtain ⟨names, v⟩ := e
      cases names with
      | nil => exact absurd rfl (hnodes _ List.mem_cons_self)
      | cons first rest =>
          have hstep : placeNode (level ++ [(name, ⟨name, "", 0, true, children⟩)])
              (name :: first :: rest, v) =
                level ++ [(name, ⟨name, "", 0, true, placeNode children (first :: rest, v)⟩)] := by
            unfold placeNode
            rw [place, Keyed.alter_append_cons hname]
            rfl
          rw [List.map_cons, List.foldl_cons, List.foldl_cons, hstep]
          exact ih (fun e he => hnodes e (List.mem_cons_of_mem _ he)) _

/-- The listings of trees with new and distinct names append these trees, if each
of them does so on its own. -/
theorem foldl_flatMap {level children : Forest}
    (hnodup : ((level ++ children).map Prod.fst).Nodup)
    (hkeys : ∀ e ∈ children, e.1 = e.2.name)
    (heach : ∀ e ∈ children, ∀ front : Forest, e.2.name ∉ front.map Prod.fst →
      e.2.preorder.foldl placeNode front = front ++ [(e.2.name, e.2)]) :
    (children.flatMap fun e => e.2.preorder).foldl placeNode level = level ++ children := by
  induction children generalizing level with
  | nil => simp
  | cons entry rest ih =>
      obtain ⟨key, v⟩ := entry
      obtain rfl : key = v.name := hkeys _ List.mem_cons_self
      have hnew : v.name ∉ level.map Prod.fst := by
        rw [List.map_append, List.nodup_append] at hnodup
        intro hmem
        exact hnodup.2.2 _ hmem v.name (by simp) rfl
      rw [List.flatMap_cons, List.foldl_append, heach _ List.mem_cons_self level hnew,
        List.append_cons level (v.name, v) rest]
      refine ih ?_ (fun e he => hkeys e (List.mem_cons_of_mem _ he))
        (fun e he => heach e (List.mem_cons_of_mem _ he))
      rwa [← List.append_cons]

/-- The listing of a canonical tree with a new name appends the tree. -/
theorem foldl_preorder {v : View} (h : v.Canonical) {level : Forest}
    (hnew : v.name ∉ level.map Prod.fst) :
    v.preorder.foldl placeNode level = level ++ [(v.name, v)] := by
  induction h generalizing level with
  | file name size hname =>
      rw [View.preorder_eq]
      exact Keyed.alter_of_not_mem hnew
  | directory name children hname hnodup hkeys hchildren ih =>
      rw [View.preorder_eq, List.foldl_cons]
      have hown : placeNode level ([name], ⟨name, "", 0, true, children⟩) =
          level ++ [(name, ⟨name, "", 0, true, []⟩)] := Keyed.alter_of_not_mem hnew
      have hplaces : ∀ e ∈ children.flatMap fun e => e.2.preorder, e.1 ≠ [] := by
        intro e he
        obtain ⟨child, hchild, he⟩ := List.mem_flatMap.1 he
        exact ((hchildren child hchild).of_mem_preorder he).1
      rw [hown, foldl_below hnew _ hplaces, foldl_flatMap (by simpa using hnodup) hkeys
        fun e he front hfront => ih e he hfront]
      rfl

end Forest

/-! ## The listing of a list of roots -/

section Roots

variable {roots : List View}

theorem of_mem_flatMap_preorder (h : View.AreCanonical roots) {e : List String × View}
    (he : e ∈ roots.flatMap View.preorder) :
    e.1 ≠ [] ∧ (∀ n ∈ e.1, IsName n) ∧ (e.2.isDirectory = true → e.2.size = 0) := by
  obtain ⟨v, hv, he⟩ := List.mem_flatMap.1 he
  exact (h.2 v hv).of_mem_preorder he

/-- The listing of canonical roots materializes to these roots. -/
theorem materialize_listing (h : View.AreCanonical roots) :
    materialize (View.listing roots) = roots := by
  have hforest := Forest.canonical_ofRoots_iff.2 h
  have hflat : roots.flatMap View.preorder =
      (Forest.ofRoots roots).flatMap fun e => e.2.preorder := by
    simp [Forest.ofRoots, List.flatMap_map]
  have hplaced : materializeForest (View.listing roots) = Forest.ofRoots roots := by
    unfold materializeForest View.listing
    rw [Forest.foldl_insert_record fun e he => of_mem_flatMap_preorder h he, hflat]
    exact Forest.foldl_flatMap (by simpa using hforest.nodup) hforest.keys
      fun e he front hfront => Forest.foldl_preorder (hforest.nodes e he) hfront
  unfold materialize
  rw [hplaced, Forest.map_snd_ofRoots]

/-- Lines that are read one by one are read together. -/
theorem parseAll_map_line {records : List Record} (h : ∀ r ∈ records, r.IsNormal) :
    Record.parseAll (records.map Record.line) = .ok records := by
  unfold Record.parseAll
  induction records with
  | nil => rfl
  | cons r records ih =>
      rw [List.map_cons, List.mapM_cons, Record.parse_line (h r List.mem_cons_self),
        ih fun r' hr' => h r' (List.mem_cons_of_mem _ hr')]
      rfl

/-- The lines of the listing of canonical roots are read back as the listing. -/
theorem parseAll_listing (h : View.AreCanonical roots) :
    Record.parseAll ((View.listing roots).map Record.line) = .ok (View.listing roots) := by
  refine parseAll_map_line fun r hr => ?_
  obtain ⟨e, he, rfl⟩ := List.mem_map.1 hr
  obtain ⟨hne, hnames, hsize⟩ := of_mem_flatMap_preorder h he
  exact View.isNormal_record hne hnames hsize

end Roots

theorem areCanonical_materialize (records : List Record) :
    View.AreCanonical (materialize records) := by
  rw [← Forest.canonical_ofRoots_iff, ofRoots_materialize]
  exact canonical_materializeForest records

/-- **Trees and flat listings are inverse.**  Every listing materializes to
canonical roots.  Canonical roots are given back by the lines of their listing in
preorder, siblings in their order at every level; so what a listing materializes
to is not changed by listing it and materializing the lines. -/
theorem materializeLines_listing :
    (∀ records : List Record, View.AreCanonical (materialize records)) ∧
      (∀ roots : List View, View.AreCanonical roots →
        materializeLines ((View.listing roots).map Record.line) = .ok roots) ∧
      ∀ records : List Record,
        materializeLines ((View.listing (materialize records)).map Record.line) =
          .ok (materialize records) := by
  have hback (roots : List View) (h : View.AreCanonical roots) :
      materializeLines ((View.listing roots).map Record.line) = .ok roots := by
    unfold materializeLines
    rw [parseAll_listing h]
    exact congrArg Except.ok (materialize_listing h)
  exact ⟨areCanonical_materialize, hback,
    fun records => hback _ (areCanonical_materialize records)⟩

/-- Names with field separators, blanks and digits, and the largest size. -/
theorem materializeLines_listing_separators :
    let roots : List View :=
      [⟨"a|7 ", "", 0, true, [(" 3|", View.file " 3|" 18446744073709551615),
        ("b", View.directory "b")]⟩, View.file ".." 5]
    View.AreCanonical roots ∧
      materializeLines ["a|7 /|0", "a|7 / 3||18446744073709551615", "a|7 /b/|0", "..|5"] =
        .ok roots := by
  intro roots
  have hchildren : ∀ e ∈ ([(" 3|", View.file " 3|" 18446744073709551615),
      ("b", View.directory "b")] : Forest), e.1 = e.2.name ∧ e.2.Canonical := by
    intro e he
    simp only [List.mem_cons, List.not_mem_nil, or_false] at he
    rcases he with rfl | rfl
    · exact ⟨rfl, .file _ _ (by decide)⟩
    · exact ⟨rfl, .directory "b" [] (by decide) (by simp) (by simp) (by simp)⟩
  have h : View.AreCanonical roots := by
    refine ⟨by decide, ?_⟩
    intro v hv
    simp only [roots, List.mem_cons, List.not_mem_nil, or_false] at hv
    rcases hv with rfl | rfl
    · exact .directory "a|7 " _ (by decide) (by decide) (fun e he => (hchildren e he).1)
        fun e he => (hchildren e he).2
    · exact .file ".." 5 (by decide)
  exact ⟨h, materializeLines_listing.2.1 roots h⟩

end ContentPreview
