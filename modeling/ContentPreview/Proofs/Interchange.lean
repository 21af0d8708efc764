import ContentPreview.Interchange
import ContentPreview.Keyed
import ContentPreview.Proofs.Json.Writing

/-!
# View trees through JSON

A view tree is written as an object of its fields, with the children as an object in a
field of their own, which is left out where there are none.  Reading is more tolerant: the
text of a node may be left out as well, and an empty object of children may be written.  All
of these values spell the same tree (`View.IsSpelledBy`), and each is read as that tree.

Two things limit this.  The children of a node are the entries of a map, so their keys have
to be distinct; otherwise the reader, which keeps the first place and the last value of a
repeated key, would drop some.  And the reader enters no more than a fixed number of
containers within one another, of which every level of a tree takes two.

## Main definitions

* `Json.Value.depth` — the number of containers within one another.
* `View.HasDistinctKeys` — the trees whose children are the entries of maps.
* `View.IsSpelledBy` — the JSON values of a tree.

## Main results

* `ofJson?_of_isSpelledBy` — each spelling is read as its tree.
* `json_round_trip` — a tree survives being written as JSON text and read back.
-/

namespace ContentPreview

open Json (Value Fields)

/-! ## Values -/

namespace Json.Value

mutual

/-- The number of containers that are entered on the way to the innermost part of a value. -/
def depth : Value → Nat
  | list items => 1 + depthOfItems items
  | object fields => 1 + depthOfFields fields
  | null | bool _ | integer _ | fractional | string _ => 0

/-- The greatest depth of an item. -/
def depthOfItems : List Value → Nat
  | [] => 0
  | v :: rest => max v.depth (depthOfItems rest)

/-- The greatest depth of a field. -/
def depthOfFields : List (Option String × Value) → Nat
  | [] => 0
  | (_, v) :: rest => max v.depth (depthOfFields rest)

end

/-- The values of the fields of an object lie within it. -/
theorem depth_lt_of_mem {fields : List (String × Value)} {field : String × Value}
    (h : field ∈ fields) : field.2.depth < (ofFields fields).depth := by
  rw [ofFields, depth, Nat.add_comm, Nat.lt_succ_iff]
  induction fields with
  | nil => cases h
  | cons first rest ih =>
      rw [List.map_cons, depthOfFields]
      rcases List.mem_cons.1 h with rfl | hrest
      · exact Nat.le_max_left _ _
      · exact Nat.le_trans (ih hrest) (Nat.le_max_right _ _)

theorem natBelow?_ofNat {n bound : Nat} (h : n < bound) :
    (ofNat n).natBelow? bound = some n := by
  have hrange : (0 : Int) ≤ Int.ofNat n ∧ Int.ofNat n < (bound : Int) :=
    ⟨Int.natCast_nonneg n, Int.ofNat_lt.2 h⟩
  exact if_pos hrange

theorem uint64?_sizeToJson (size : UInt64) : (sizeToJson size).uint64? = some size := by
  rw [sizeToJson, uint64?, natBelow?_ofNat size.toNat_lt, Option.map_some, UInt64.ofNat_toNat]

end Json.Value

/-- An object of known fields with different names is read as it is. -/
theorem Json.Fields.read_ofFields {names : List String} {fields : List (String × Value)}
    (hknown : ∀ field ∈ fields, field.1 ∈ names) (h : (fields.map Prod.fst).Nodup) :
    Fields.read names (.ofFields fields) = some ⟨false, fields⟩ := by
  have hobject : ofObject names (fields.map fun field => (some field.1, field.2)) =
      some fields := by
    induction fields with
    | nil => rfl
    | cons field rest ih =>
        obtain ⟨name, value⟩ := field
        obtain ⟨hnew, hrest⟩ := List.nodup_cons.1 h
        have hfresh : (rest.lookup name).isSome = false := by
          rw [Option.isSome_eq_false_iff, Option.isNone_iff_eq_none, List.lookup_eq_none_iff]
          intro field hfield
          have hmem : field.1 ∈ rest.map Prod.fst := List.mem_map_of_mem hfield
          have hne : name ≠ field.1 := by
            rintro rfl
            exact hnew hmem
          simpa using hne
        rw [List.map_cons, ofObject, ih (fun f hf => hknown f (List.mem_cons_of_mem _ hf)) hrest]
        simp [hknown _ List.mem_cons_self, hfresh]
  change (ofObject names (fields.map fun field => (some field.1, field.2))).map _ = _
  rw [hobject, Option.map_some]

namespace View

/-! ## Trees and their spellings -/

mutual

/-- In every node of a tree the keys of the children are distinct. -/
def HasDistinctKeys : View → Prop
  | ⟨_, _, _, _, children⟩ => (children.map Prod.fst).Nodup ∧ HaveDistinctKeys children

/-- All trees of a forest have distinct keys. -/
def HaveDistinctKeys : List (String × View) → Prop
  | [] => True
  | (_, v) :: rest => v.HasDistinctKeys ∧ HaveDistinctKeys rest

end

/-- The fields of a node, those that may be left out given apart. -/
def fields (v : View) (contents below : List (String × Value)) : List (String × Value) :=
  [("name", .ofText v.name)] ++ contents ++
    [("size", sizeToJson v.size), ("is_directory", .bool v.isDirectory)] ++ below

mutual

/-- The JSON values that spell a tree: fields with their default values may be written or
left out, at each node as one likes. -/
def IsSpelledBy : View → Value → Prop
  | ⟨name, content, size, isDirectory, children⟩, j =>
    ∃ contents below : List (String × Value),
      (contents = [("content", .ofText content)] ∨ contents = [] ∧ content = "") ∧
      ((∃ fields, AreSpelledBy children fields ∧ below = [("children", .ofFields fields)]) ∨
        below = [] ∧ children = []) ∧
      j = .ofFields (fields ⟨name, content, size, isDirectory, children⟩ contents below)

/-- The fields that spell the children of a node. -/
def AreSpelledBy : List (String × View) → List (String × Value) → Prop
  | [], fields => fields = []
  | (key, v) :: rest, fields =>
    ∃ j more, v.IsSpelledBy j ∧ AreSpelledBy rest more ∧ fields = (key, j) :: more

end

mutual

/-- A tree is written in one of its spellings. -/
theorem isSpelledBy_toJson (v : View) : v.IsSpelledBy v.toJson :=
  match v with
  | ⟨_, content, _, _, []⟩ =>
    ⟨[("content", .ofText content)], [], Or.inl rfl, Or.inr ⟨rfl, rfl⟩, rfl⟩
  | ⟨_, content, _, _, child :: rest⟩ =>
    ⟨[("content", .ofText content)], [("children", .ofFields (toJsonAll (child :: rest)))],
      Or.inl rfl, Or.inl ⟨_, areSpelledBy_toJsonAll (child :: rest), rfl⟩, rfl⟩

theorem areSpelledBy_toJsonAll (children : List (String × View)) :
    AreSpelledBy children (toJsonAll children) :=
  match children with
  | [] => rfl
  | (_, v) :: rest =>
    ⟨v.toJson, toJsonAll rest, isSpelledBy_toJson v, areSpelledBy_toJsonAll rest, rfl⟩

end

/-! ## Reading a spelling -/

mutual

/-- Every spelling can be written. -/
theorem isPlain_of_isSpelledBy (v : View) {j : Value} (h : v.IsSpelledBy j) : j.IsPlain :=
  match v with
  | ⟨name, content, size, isDirectory, children⟩ => by
    obtain ⟨contents, below, hcontents, hbelow, rfl⟩ := h
    rcases hcontents with rfl | ⟨rfl, -⟩ <;> rcases hbelow with ⟨fields, hfields, rfl⟩ | ⟨rfl, -⟩
    · exact ⟨rfl, trivial, rfl, trivial, rfl, trivial, rfl, trivial, rfl,
        havePlainValues_of_areSpelledBy children hfields, trivial⟩
    · exact ⟨rfl, trivial, rfl, trivial, rfl, trivial, rfl, trivial, trivial⟩
    · exact ⟨rfl, trivial, rfl, trivial, rfl, trivial, rfl,
        havePlainValues_of_areSpelledBy children hfields, trivial⟩
    · exact ⟨rfl, trivial, rfl, trivial, rfl, trivial, trivial⟩

theorem havePlainValues_of_areSpelledBy (children : List (String × View))
    {fields : List (String × Value)} (h : AreSpelledBy children fields) :
    Value.HavePlainValues (fields.map fun field => (some field.1, field.2)) :=
  match children with
  | [] => by
    obtain rfl : fields = [] := h
    trivial
  | (key, v) :: rest => by
    obtain ⟨j, more, hj, hmore, rfl⟩ := h
    exact ⟨rfl, isPlain_of_isSpelledBy v hj, havePlainValues_of_areSpelledBy rest hmore⟩

end

/-- The reader of the children of a node below which so many containers may be entered. -/
def childrenOfJson? : Nat → Value → Option (List (String × View))
  | 0 => fun _ => none
  | below + 1 => entriesOfJson? (View.ofJson? below)

theorem entriesOfJson?_ofFields {α : Type} (decode : Value → Option α)
    (fields : List (String × Value)) :
    entriesOfJson? decode (.ofFields fields) =
      ((fields.map fun (field : String × Value) => (some field.1, field.2)).mapM
        fun (field : Option String × Value) => do
          return (← field.1, ← decode field.2)).bind fun entries =>
            some (Keyed.ofEntries entries) := rfl

/-- What the reader makes of a node, given what it makes of its children. -/
theorem ofJson?_fields {v : View} {contents below : List (String × Value)} {depth : Nat}
    (hcontents : contents = [("content", .ofText v.content)] ∨ contents = [] ∧ v.content = "")
    (hbelow : (∃ inner, below = [("children", .ofFields inner)] ∧
        childrenOfJson? depth (.ofFields inner) = some v.children) ∨
      below = [] ∧ v.children = []) :
    View.ofJson? (depth + 1) (.ofFields (v.fields contents below)) = some v := by
  have hread : Fields.read ["name", "content", "size", "is_directory", "children"]
      (.ofFields (v.fields contents below)) = some ⟨false, v.fields contents below⟩ := by
    refine Fields.read_ofFields ?_ ?_ <;> rcases hcontents with rfl | ⟨rfl, -⟩ <;>
      rcases hbelow with ⟨_, rfl, -⟩ | ⟨rfl, -⟩ <;> simp [fields]
  have hname : Fields.required ⟨false, v.fields contents below⟩ "name" Value.text? =
      some v.name := rfl
  have hcontent : Fields.withDefault ⟨false, v.fields contents below⟩ "content" "" Value.text? =
      some v.content := by
    rcases hcontents with rfl | ⟨rfl, hempty⟩
    · rfl
    · rcases hbelow with ⟨_, rfl, -⟩ | ⟨rfl, -⟩ <;> exact congrArg some hempty.symm
  have hsize : Fields.required ⟨false, v.fields contents below⟩ "size" Value.uint64? =
      some v.size := by
    have hlookup : (v.fields contents below).lookup "size" = some (sizeToJson v.size) := by
      rcases hcontents with rfl | ⟨rfl, -⟩ <;> rfl
    rw [Fields.required, hlookup, Option.bind_some, Value.uint64?_sizeToJson]
  have hdirectory : Fields.required ⟨false, v.fields contents below⟩ "is_directory" Value.bool? =
      some v.isDirectory := by
    rcases hcontents with rfl | ⟨rfl, -⟩ <;> rfl
  have hchildren : Fields.withDefault ⟨false, v.fields contents below⟩ "children" []
      (childrenOfJson? depth) = some v.children := by
    rcases hbelow with ⟨inner, rfl, hinner⟩ | ⟨rfl, hnone⟩
    · rcases hcontents with rfl | ⟨rfl, -⟩ <;> exact hinner
    · rcases hcontents with rfl | ⟨rfl, -⟩ <;> exact congrArg some hnone.symm
  cases depth <;>
  · unfold View.ofJson?
    unfold childrenOfJson? at hchildren
    simp only [hread, Option.bind_eq_bind, Option.bind_some, hname, hcontent, hsize, hdirectory,
      hchildren]
    obtain ⟨_, _, _, _, _⟩ := v
    rfl

mutual

/-- A spelling is read as its tree, if the reader may enter as many containers. -/
theorem ofJson?_of_isSpelledBy (v : View) (hkeys : v.HasDistinctKeys) {j : Value}
    (h : v.IsSpelledBy j) {depth : Nat} (hdepth : j.depth ≤ depth) :
    View.ofJson? depth j = some v :=
  match v with
  | ⟨name, content, size, isDirectory, children⟩ => by
    obtain ⟨contents, below, hcontents, hbelow, rfl⟩ := h
    cases depth with
    | zero => simp [Value.ofFields, Value.depth] at hdepth
    | succ depth =>
        refine ofJson?_fields hcontents ?_
        rcases hbelow with ⟨inner, hinner, rfl⟩ | hnone
        · have hmem : ("children", .ofFields inner) ∈ fields
              ⟨name, content, size, isDirectory, children⟩ contents
                [("children", .ofFields inner)] := List.mem_append_right _ List.mem_cons_self
          have hwithin : (Value.ofFields inner).depth ≤ depth :=
            Nat.le_of_lt_succ (Nat.lt_of_lt_of_le (Value.depth_lt_of_mem hmem) hdepth)
          refine Or.inl ⟨inner, rfl, ?_⟩
          cases depth with
          | zero => simp [Value.ofFields, Value.depth] at hwithin
          | succ below =>
              have hchildren := mapM_of_areSpelledBy children hkeys.2 hinner fun field hfield =>
                Nat.le_of_lt_succ (Nat.lt_of_lt_of_le (Value.depth_lt_of_mem hfield) hwithin)
              rw [childrenOfJson?, entriesOfJson?_ofFields, hchildren, Option.bind_some,
                Keyed.ofEntries_of_nodup hkeys.1]
        · exact Or.inr hnone

theorem mapM_of_areSpelledBy (children : List (String × View)) (hkeys : HaveDistinctKeys children)
    {fields : List (String × Value)} (h : AreSpelledBy children fields) {depth : Nat}
    (hdepth : ∀ field ∈ fields, field.2.depth ≤ depth) :
    ((fields.map fun field => (some field.1, field.2)).mapM
      fun field => do return (← field.1, ← View.ofJson? depth field.2)) =
        some children :=
  match children with
  | [] => by
    obtain rfl : fields = [] := h
    rfl
  | (key, v) :: rest => by
    obtain ⟨j, more, hj, hmore, rfl⟩ := h
    obtain ⟨hv, hrest⟩ := hkeys
    have hfirst := ofJson?_of_isSpelledBy v hv hj (hdepth (key, j) List.mem_cons_self)
    have hothers := mapM_of_areSpelledBy rest hrest hmore fun field hfield =>
      hdepth field (List.mem_cons_of_mem _ hfield)
    rw [List.map_cons, List.mapM_cons, hothers]
    simp [hfirst]

end

/-! ## Trees as text -/

/-- The tree that a JSON text stands for. -/
def ofText? (text : String) : Option View :=
  (Json.read text).bind (View.ofJson? Json.depthLimit)

/-- **View trees survive JSON.**  A tree whose keys are distinct is given back by the text that
is written for it, in either layout, with the order of the children at every level, provided
that no more containers lie within one another than the reader enters.  The same holds of
every other spelling of the tree: texts that are empty and children that are not there may be
written or left out. -/
theorem json_round_trip (v : View) (hkeys : v.HasDistinctKeys) :
    (v.toJson.depth ≤ Json.depthLimit →
      ofText? v.toJson.compact = some v ∧ ofText? v.toJson.indented = some v) ∧
    ∀ j, v.IsSpelledBy j → j.depth ≤ Json.depthLimit →
      ofText? j.compact = some v ∧ ofText? j.indented = some v := by
  have hspelled (j : Value) (hj : v.IsSpelledBy j) (hdepth : j.depth ≤ Json.depthLimit) :
      ofText? j.compact = some v ∧ ofText? j.indented = some v := by
    have hplain := isPlain_of_isSpelledBy v hj
    have hread := ofJson?_of_isSpelledBy v hkeys hj hdepth
    unfold ofText?
    rw [Json.read_compact hplain, Json.read_indented hplain]
    exact ⟨hread, hread⟩
  exact ⟨hspelled v.toJson (isSpelledBy_toJson v), hspelled⟩

/-- Characters that are escaped and characters that are not, the greatest size, and a key that
is not the name below it; once as it is written, and once with all empty children written and
no empty text. -/
theorem json_round_trip_awkward :
    let file : View := ⟨"a\"b\\c\n\x01\x7f", "\té€𝄞", 18446744073709551615, false, []⟩
    let v : View := ⟨"", "", 0, true, [("z", file), ("a", ⟨"z", "", 1, true, []⟩)]⟩
    let j : Value := .ofFields [("name", .ofText ""), ("size", .ofNat 0),
      ("is_directory", .bool true), ("children", .ofFields [
        ("z", .ofFields [("name", .ofText file.name), ("content", .ofText file.content),
          ("size", .ofNat 18446744073709551615), ("is_directory", .bool false),
          ("children", .ofFields [])]),
        ("a", .ofFields [("name", .ofText "z"), ("size", .ofNat 1), ("is_directory", .bool true),
          ("children", .ofFields [])])])]
    v.HasDistinctKeys ∧ v.toJson.depth = 3 ∧ j.depth = 4 ∧
      ofText? v.toJson.compact = some v ∧ ofText? v.toJson.indented = some v ∧
      ofText? j.compact = some v ∧ ofText? j.indented = some v := by
  intro file v j
  have hkeys : v.HasDistinctKeys := ⟨by decide, ⟨by decide, trivial⟩, ⟨by decide, trivial⟩, trivial⟩
  have hwritten : v.toJson.depth = 3 := by decide
  have hdepth : j.depth = 4 := by decide
  have hj : v.IsSpelledBy j := by
    refine ⟨[], _, Or.inr ⟨rfl, rfl⟩, Or.inl ⟨_, ?_, rfl⟩, rfl⟩
    refine ⟨_, _, ?_, ⟨_, _, ?_, rfl, rfl⟩, rfl⟩
    · exact ⟨[("content", .ofText file.content)], [("children", .ofFields [])], Or.inl rfl,
        Or.inl ⟨[], rfl, rfl⟩, rfl⟩
    · exact ⟨[], [("children", .ofFields [])], Or.inr ⟨rfl, rfl⟩, Or.inl ⟨[], rfl, rfl⟩, rfl⟩
  obtain ⟨hself, hspelled⟩ := json_round_trip v hkeys
  obtain ⟨hcompact, hindented⟩ := hself (by rw [hwritten]; decide)
  obtain ⟨hcompact', hindented'⟩ := hspelled j hj (by rw [hdepth]; decide)
  exact ⟨hkeys, hwritten, hdepth, hcompact, hindented, hcompact', hindented'⟩

end View

end ContentPreview
