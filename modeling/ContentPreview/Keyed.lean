/-!
# Entries under keys

Lists of entries that serve as small maps: each key should occur once, and
the entries stand in the order in which their keys first appeared.  A change
never moves an entry; a new key goes to the end.  Look-up is `List.lookup`.

## Main definitions

* `alter` — change the value under a key, or append one.
* `put` — set the value under a key.
* `ofEntries` — entries in which keys may repeat, brought into this form.

## Main results

* `lookup_alter` — one key is changed, every other look-up is what it was.
* `map_fst_alter` — the keys stay in place, and a new key goes to the end.
* `alter_of_not_mem`, `alter_append_cons` — the entries after a change.
* `ofEntries_of_nodup` — entries under distinct keys are left alone.
-/

namespace ContentPreview.Keyed

variable {α : Type}

/-- Changes the value under a key, or appends a new entry if the key is
missing. -/
def alter (key : String) (change : Option α → α) : List (String × α) → List (String × α)
  | [] => [(key, change none)]
  | (k, v) :: rest =>
    if k = key then (k, change (some v)) :: rest else (k, v) :: alter key change rest

/-- Sets the value under a key. -/
def put (key : String) (value : α) (entries : List (String × α)) : List (String × α) :=
  alter key (fun _ => value) entries

/-- Entries under distinct keys: a repeated key keeps its first place and takes
the last value. -/
def ofEntries (entries : List (String × α)) : List (String × α) :=
  entries.foldl (fun known (key, value) => put key value known) []

/-! ## Laws

What `alter` does to the entries is seen in three ways: through look-up,
through the list of keys, and through the list itself where the place of the
key is known.  None of the laws needs the keys to be distinct; that they stay
distinct is one of the results.
-/

variable {key : String} {change : Option α → α} {entries : List (String × α)}

theorem lookup_cons_of_ne {k k' : String} (h : k ≠ k') (v : α) :
    ((k', v) :: entries).lookup k = entries.lookup k := by
  have hne : (k == k') = false := by simpa using h
  rw [List.lookup_cons, hne]

theorem lookup_alter (key : String) (change : Option α → α) (entries : List (String × α))
    (k : String) :
    (alter key change entries).lookup k =
      if k = key then some (change (entries.lookup key)) else entries.lookup k := by
  induction entries with
  | nil =>
      by_cases hk : k = key
      · simp [alter, hk]
      · rw [alter, lookup_cons_of_ne hk, if_neg hk]
  | cons entry rest ih =>
      obtain ⟨k', v⟩ := entry
      unfold alter
      by_cases hkey : k' = key
      · subst hkey
        by_cases hk : k = k'
        · simp [hk]
        · rw [if_pos rfl, if_neg hk, lookup_cons_of_ne hk, lookup_cons_of_ne hk]
      · rw [if_neg hkey, lookup_cons_of_ne (Ne.symm hkey)]
        by_cases hk : k = k'
        · subst hk
          rw [if_neg hkey, List.lookup_cons_self, List.lookup_cons_self]
        · rw [lookup_cons_of_ne hk, lookup_cons_of_ne hk, ih]

theorem mem_of_lookup {k : String} {v : α} (h : entries.lookup k = some v) :
    (k, v) ∈ entries := by
  induction entries with
  | nil => simp at h
  | cons entry rest ih =>
      obtain ⟨k', v'⟩ := entry
      by_cases hk : k = k'
      · subst hk
        rw [List.lookup_cons_self, Option.some.injEq] at h
        simp [h]
      · rw [lookup_cons_of_ne hk] at h
        exact List.mem_cons_of_mem _ (ih h)

theorem lookup_of_mem (h : (entries.map Prod.fst).Nodup) {k : String} {v : α}
    (hmem : (k, v) ∈ entries) : entries.lookup k = some v := by
  induction entries with
  | nil => cases hmem
  | cons entry rest ih =>
      rw [List.map_cons, List.nodup_cons] at h
      rcases List.mem_cons.1 hmem with rfl | hrest
      · exact List.lookup_cons_self
      · have hne : k ≠ entry.1 := fun heq => h.1 (heq ▸ List.mem_map_of_mem hrest)
        rw [lookup_cons_of_ne hne]
        exact ih h.2 hrest

theorem mem_map_fst_iff : key ∈ entries.map Prod.fst ↔ (entries.lookup key).isSome = true := by
  rw [List.lookup_isSome_iff, List.mem_map]
  simp only [beq_iff_eq, eq_comm (a := key)]

theorem alter_of_not_mem (h : key ∉ entries.map Prod.fst) :
    alter key change entries = entries ++ [(key, change none)] := by
  induction entries with
  | nil => rfl
  | cons entry rest ih =>
      simp only [List.map_cons, List.mem_cons, not_or] at h
      unfold alter
      rw [if_neg (Ne.symm h.1), ih h.2, List.cons_append]

theorem alter_append_cons {front : List (String × α)} {v : α} {rest : List (String × α)}
    (h : key ∉ front.map Prod.fst) :
    alter key change (front ++ (key, v) :: rest) =
      front ++ (key, change (some v)) :: rest := by
  induction front with
  | nil => simp [alter]
  | cons entry front ih =>
      simp only [List.map_cons, List.mem_cons, not_or] at h
      rw [List.cons_append, alter, if_neg (Ne.symm h.1), ih h.2, List.cons_append]

/-- A key that occurs splits the entries at its first place. -/
theorem exists_split (h : key ∈ entries.map Prod.fst) :
    ∃ front v rest, entries = front ++ (key, v) :: rest ∧ key ∉ front.map Prod.fst := by
  induction entries with
  | nil => simp at h
  | cons entry entries ih =>
      obtain ⟨k, v⟩ := entry
      by_cases hk : key = k
      · exact ⟨[], v, entries, by rw [hk]; rfl, by simp⟩
      · obtain ⟨front, w, rest, hsplit, hnot⟩ := ih (by simpa [hk] using h)
        exact ⟨(k, v) :: front, w, rest, by rw [hsplit]; rfl, by simp [hk, hnot]⟩

theorem map_fst_alter (key : String) (change : Option α → α) (entries : List (String × α)) :
    (alter key change entries).map Prod.fst =
      if key ∈ entries.map Prod.fst then entries.map Prod.fst
      else entries.map Prod.fst ++ [key] := by
  by_cases h : key ∈ entries.map Prod.fst
  · rw [if_pos h]
    obtain ⟨front, v, rest, rfl, hnot⟩ := exists_split h
    rw [alter_append_cons hnot]
    simp
  · rw [if_neg h, alter_of_not_mem h]
    simp

theorem nodup_alter (h : (entries.map Prod.fst).Nodup) :
    ((alter key change entries).map Prod.fst).Nodup := by
  rw [map_fst_alter]
  by_cases hmem : key ∈ entries.map Prod.fst
  · rwa [if_pos hmem]
  · rw [if_neg hmem]
    exact List.nodup_append.2 ⟨h, by simp, by
      intro a ha b hb
      rw [List.mem_singleton] at hb
      rintro rfl
      exact hmem (hb ▸ ha)⟩

/-- What holds of all entries, and of the changed one, holds of all entries
after the change. -/
theorem forall_mem_alter {P : String × α → Prop} (h : ∀ e ∈ entries, P e)
    (hnew : P (key, change none)) (hold : ∀ v, (key, v) ∈ entries → P (key, change (some v))) :
    ∀ e ∈ alter key change entries, P e := by
  by_cases hmem : key ∈ entries.map Prod.fst
  · obtain ⟨front, v, rest, rfl, hnot⟩ := exists_split hmem
    rw [alter_append_cons hnot]
    intro e he
    rw [List.mem_append, List.mem_cons] at he
    rcases he with he | rfl | he
    · exact h e (by simp [he])
    · exact hold v (by simp)
    · exact h e (by simp [he])
  · rw [alter_of_not_mem hmem]
    intro e he
    rw [List.mem_append, List.mem_singleton] at he
    rcases he with he | rfl
    · exact h e he
    · exact hnew

/-- Entries under distinct keys stay as they are. -/
theorem ofEntries_of_nodup (h : (entries.map Prod.fst).Nodup) : ofEntries entries = entries := by
  have hfold (known entries : List (String × α)) (h : ((known ++ entries).map Prod.fst).Nodup) :
      entries.foldl (fun known entry => put entry.1 entry.2 known) known = known ++ entries := by
    induction entries generalizing known with
    | nil => exact (List.append_nil known).symm
    | cons entry rest ih =>
        obtain ⟨key, value⟩ := entry
        have hnew : key ∉ known.map Prod.fst := by
          rw [List.map_append, List.map_cons, List.nodup_append] at h
          exact fun hkey => h.2.2 key hkey key List.mem_cons_self rfl
        have hput : put key value known = known ++ [(key, value)] := alter_of_not_mem hnew
        rw [List.append_cons] at h ⊢
        rw [List.foldl_cons]
        dsimp only
        rw [hput]
        exact ih (known ++ [(key, value)]) h
  exact hfold [] entries h

end ContentPreview.Keyed
