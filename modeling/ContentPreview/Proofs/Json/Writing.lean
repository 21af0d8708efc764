import ContentPreview.Proofs.Json.Reading

/-!
# Both layouts are texts of the value

A value can be written if it has no part that stands for no value: a number that is not an
integer, or a string whose escapes do not make up a text.  Then each layout is one of the
texts of the value, the compact one with no blanks at all and the indented one with a line
break and the blanks of a level before every item, field and closing bracket.  So the value
is read back from either.

## Main definitions

* `Value.IsPlain` — the values that can be written.

## Main results

* `read_compact`, `read_indented` — a plain value is read back from both layouts.
-/

namespace ContentPreview.Json

namespace Value

mutual

/-- A value that can be written: none of its parts stands for no value. -/
def IsPlain : Value → Prop
  | null | bool _ | integer _ | string (some _) => True
  | fractional | string none => False
  | list items => ArePlain items
  | object fields => HavePlainValues fields

/-- Items that can be written. -/
def ArePlain : List Value → Prop
  | [] => True
  | v :: rest => v.IsPlain ∧ ArePlain rest

/-- Fields that can be written, with their names. -/
def HavePlainValues : List (Option String × Value) → Prop
  | [] => True
  | (name, v) :: rest => name.isSome ∧ v.IsPlain ∧ HavePlainValues rest

end

end Value

/-! ## The compact layout -/

mutual

theorem isText_writeCompact (v : Value) (h : v.IsPlain) : IsText v (writeCompact v) :=
  match v with
  | .null => .scalar trivial
  | .bool _ => .scalar trivial
  | .integer _ => .scalar trivial
  | .string (some _) => .scalar trivial
  | .list [] => .emptyList isGap_nil
  | .list (item :: rest) => .list isGap_nil (isItems_writeItems (item :: rest) h nofun)
  | .object [] => .emptyObject isGap_nil
  | .object (field :: rest) => .object isGap_nil (isFields_writeFields (field :: rest) h nofun)

theorem isItems_writeItems (items : List Value) (h : Value.ArePlain items) (hne : items ≠ []) :
    IsItems items (writeItems items) :=
  match items with
  | [] => absurd rfl hne
  | [item] => .last (isText_writeCompact item h.1) isGap_nil
  | item :: next :: rest =>
    .more (isText_writeCompact item h.1) isGap_nil isGap_nil
      (isItems_writeItems (next :: rest) h.2 nofun)

theorem isFields_writeFields (fields : List (Option String × Value))
    (h : Value.HavePlainValues fields) (hne : fields ≠ []) : IsFields fields (writeFields fields) :=
  match fields with
  | [] => absurd rfl hne
  | [(some _, v)] => .last (isText_writeCompact v h.2.1) isGap_nil isGap_nil isGap_nil
  | (some _, v) :: next :: rest =>
    .more (isText_writeCompact v h.2.1) isGap_nil isGap_nil isGap_nil isGap_nil
      (isFields_writeFields (next :: rest) h.2.2 nofun)

end

/-- A plain value is read back from its compact text. -/
theorem read_compact {v : Value} (h : v.IsPlain) : read v.compact = some v := by
  refine read_of_isText ?_
  rw [Value.compact, String.toList_ofList]
  exact isText_writeCompact v h

/-! ## The indented layout -/

theorem isGap_breakLine (level : Nat) : IsGap (breakLine level) := by
  intro c hc
  rcases List.mem_cons.1 hc with rfl | hblank
  · rfl
  · rw [List.eq_of_mem_replicate hblank]
    rfl

theorem isGap_blank : IsGap [' '] := by
  intro c hc
  rw [List.mem_singleton.1 hc]
  rfl

mutual

theorem isText_writeIndented (level : Nat) (v : Value) (h : v.IsPlain) :
    IsText v (writeIndented level v) :=
  match v with
  | .null => .scalar trivial
  | .bool _ => .scalar trivial
  | .integer _ => .scalar trivial
  | .string (some _) => .scalar trivial
  | .list [] => .emptyList isGap_nil
  | .list (item :: rest) => by
    obtain ⟨cs, hcs, hitems⟩ := isItems_indentItems level (item :: rest) h nofun
    rw [writeIndented, hcs]
    exact .list (isGap_breakLine (level + 1)) hitems
  | .object [] => .emptyObject isGap_nil
  | .object (field :: rest) => by
    obtain ⟨cs, hcs, hfields⟩ := isFields_indentFields level (field :: rest) h nofun
    rw [writeIndented, hcs]
    exact .object (isGap_breakLine (level + 1)) hfields

theorem isItems_indentItems (level : Nat) (items : List Value) (h : Value.ArePlain items)
    (hne : items ≠ []) :
    ∃ cs, indentItems level items = breakLine (level + 1) ++ cs ∧ IsItems items cs :=
  match items with
  | [] => absurd rfl hne
  | [item] => by
    refine ⟨_, ?_, .last (isText_writeIndented (level + 1) item h.1) (isGap_breakLine level)⟩
    rw [indentItems, List.append_assoc]
  | item :: next :: rest => by
    obtain ⟨ds, hds, hitems⟩ := isItems_indentItems level (next :: rest) h.2 nofun
    refine ⟨_, ?_, .more (isText_writeIndented (level + 1) item h.1) isGap_nil
      (isGap_breakLine (level + 1)) hitems⟩
    rw [indentItems, hds, List.append_assoc]
    rfl

theorem isFields_indentFields (level : Nat) (fields : List (Option String × Value))
    (h : Value.HavePlainValues fields) (hne : fields ≠ []) :
    ∃ cs, indentFields level fields = breakLine (level + 1) ++ cs ∧ IsFields fields cs :=
  match fields with
  | [] => absurd rfl hne
  | [(some name, v)] => by
    refine ⟨_, ?_, .last (isText_writeIndented (level + 1) v h.2.1) isGap_nil isGap_blank
      (isGap_breakLine level)⟩
    rw [indentFields, List.append_assoc]
    rfl
  | (some name, v) :: next :: rest => by
    obtain ⟨ds, hds, hfields⟩ := isFields_indentFields level (next :: rest) h.2.2 nofun
    refine ⟨_, ?_, .more (isText_writeIndented (level + 1) v h.2.1) isGap_nil isGap_blank isGap_nil
      (isGap_breakLine (level + 1)) hfields⟩
    rw [indentFields, hds, List.append_assoc]
    rfl

end

/-- A plain value is read back from its indented text. -/
theorem read_indented {v : Value} (h : v.IsPlain) : read v.indented = some v := by
  refine read_of_isText ?_
  rw [Value.indented, String.toList_ofList]
  exact isText_writeIndented 0 v h

end ContentPreview.Json
