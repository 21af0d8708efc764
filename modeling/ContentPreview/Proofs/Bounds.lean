import ContentPreview.Config

/-!
# What the bounds keep

A listing is limited in one pass that counts the files it keeps and the files it leaves
out.  The first count runs up to the bound and the second one from there, so together
they tell how many files there were, and the pass ends as a definition by recursion says
that has no counts: the listing itself, or a part of it with one record more.  The part
has every directory and at most `max` files; the record more stands for the files that
were left out, and it is a file too.  So a limited listing has at most `max + 1` files,
and each of its records but the last is one of the archive.

A truncated text is no longer than its bound, provided that the bound leaves room
for the marker.

## Main definitions

* `firstLeaves` — the directories of a listing and its first files.
* `leafTotal` — the number of its files.

## Main results

* `Limiting.foldl_add` — where the pass stands after some records.
* `limitLeaves_eq` — a limited listing without counts.
* `mem_limitLeaves`, `mem_limitLeaves_of_isDirectory` — the records of a limited
  listing.
* `leafTotal_limitLeaves_le` — the number of its files.
* `truncateText_of_le`, `truncateText_of_lt` — the two cases of a truncated text.
* `length_truncateText_le` — its length.
-/

namespace ContentPreview

/-- The directories of a listing and its first `max` files, in their order. -/
def firstLeaves : Nat → List Record → List Record
  | _, [] => []
  | max, r :: rest =>
    if r.isDirectory then r :: firstLeaves max rest
    else
      match max with
      | 0 => firstLeaves 0 rest
      | max + 1 => r :: firstLeaves max rest

/-- The number of files of a listing. -/
def leafTotal (records : List Record) : Nat := records.countP (!·.isDirectory)

/-! ## Listings -/

section Listing

variable {max : Nat} {records : List Record} {r : Record}

theorem leafTotal_cons (r : Record) (records : List Record) :
    leafTotal (r :: records) = leafTotal records + leafTotal [r] := by
  simp only [leafTotal, List.countP_cons, List.countP_nil, Nat.zero_add]

theorem leafTotal_append (xs ys : List Record) :
    leafTotal (xs ++ ys) = leafTotal xs + leafTotal ys := List.countP_append

theorem leafTotal_of_isDirectory (h : r.isDirectory = true) : leafTotal [r] = 0 := by
  simp [leafTotal, h]

theorem leafTotal_of_isFile (h : r.isDirectory = false) : leafTotal [r] = 1 := by
  simp [leafTotal, h]

theorem firstLeaves_cons (max : Nat) (r : Record) (rest : List Record) :
    firstLeaves max (r :: rest) =
      if r.isDirectory || 0 < max then r :: firstLeaves (max - leafTotal [r]) rest
      else firstLeaves (max - leafTotal [r]) rest := by
  rw [firstLeaves.eq_def]
  cases hr : r.isDirectory with
  | true => simp [hr, leafTotal_of_isDirectory hr]
  | false =>
      rw [leafTotal_of_isFile hr]
      cases max <;> simp [hr]

theorem firstLeaves_of_le (h : leafTotal records ≤ max) : firstLeaves max records = records := by
  induction records generalizing max with
  | nil => rfl
  | cons r rest ih =>
      rw [leafTotal_cons] at h
      have hkept : (r.isDirectory || decide (0 < max)) = true := by
        cases hr : r.isDirectory with
        | true => rfl
        | false =>
            rw [leafTotal_of_isFile hr] at h
            exact decide_eq_true (by omega)
      rw [firstLeaves_cons, if_pos hkept, ih (by omega)]

theorem firstLeaves_sublist (max : Nat) (records : List Record) :
    (firstLeaves max records).Sublist records := by
  induction records generalizing max with
  | nil => exact List.Sublist.refl []
  | cons r rest ih =>
      have hrest := ih (max - leafTotal [r])
      rw [firstLeaves_cons]
      split
      · exact hrest.cons_cons r
      · exact hrest.cons r

theorem mem_firstLeaves_of_isDirectory (h : r ∈ records) (hdir : r.isDirectory = true)
    (max : Nat) : r ∈ firstLeaves max records := by
  induction records generalizing max with
  | nil => cases h
  | cons r' rest ih =>
      rw [firstLeaves_cons]
      rcases List.mem_cons.1 h with rfl | hrest
      · rw [hdir, Bool.true_or, if_pos rfl]
        exact List.mem_cons_self
      · have hlater := ih hrest (max - leafTotal [r'])
        split
        · exact List.mem_cons_of_mem _ hlater
        · exact hlater

theorem leafTotal_firstLeaves (max : Nat) (records : List Record) :
    leafTotal (firstLeaves max records) = min max (leafTotal records) := by
  induction records generalizing max with
  | nil => exact (Nat.min_zero max).symm
  | cons r rest ih =>
      have hrest := ih (max - leafTotal [r])
      rw [firstLeaves_cons, leafTotal_cons r rest]
      cases hdir : r.isDirectory with
      | true =>
          have hnone := leafTotal_of_isDirectory hdir
          rw [Bool.true_or, if_pos rfl, leafTotal_cons]
          omega
      | false =>
          have hone := leafTotal_of_isFile hdir
          rw [Bool.false_or]
          by_cases hroom : 0 < max
          · rw [if_pos (decide_eq_true hroom), leafTotal_cons]
            omega
          · rw [if_neg (by simpa using hroom)]
            omega

/-- Where limiting stands after some records: it kept the first files for which there was
room, and counted the others. -/
theorem Limiting.foldl_add (max : Nat) (records : List Record) (l : Limiting) :
    records.foldl (Limiting.add max) l =
      { emitted := l.emitted ++ firstLeaves (max - l.leaves) records
        leaves := l.leaves + min (max - l.leaves) (leafTotal records)
        dropped := l.dropped + (leafTotal records - (max - l.leaves)) } := by
  induction records generalizing l with
  | nil => simp [firstLeaves, leafTotal]
  | cons r rest ih =>
      rw [List.foldl_cons, ih, leafTotal_cons, firstLeaves_cons]
      unfold Limiting.add
      cases hdir : r.isDirectory with
      | true =>
          rw [leafTotal_of_isDirectory hdir]
          simp
      | false =>
          rw [leafTotal_of_isFile hdir]
          by_cases hroom : l.leaves < max
          · have hpos : 0 < max - l.leaves := by omega
            have hleft : max - (l.leaves + 1) = max - l.leaves - 1 := by omega
            simp [hroom, hpos, hleft]
            omega
          · have hleft : max - l.leaves = 0 := by omega
            simp [hroom, hleft]
            omega

/-- A limited listing has the directories and the first files, and a record for files left
out if there are more. -/
theorem limitLeaves_eq (max : Nat) (records : List Record) :
    limitLeaves max records =
      firstLeaves max records ++ if max < leafTotal records then [Record.tooManyFiles] else [] := by
  unfold limitLeaves
  rw [Limiting.foldl_add]
  unfold Limiting.listing
  by_cases hcut : max < leafTotal records
  · simp [hcut, Nat.sub_pos_of_lt hcut]
  · simp [hcut, Nat.sub_eq_zero_of_le (Nat.le_of_not_lt hcut)]

theorem limitLeaves_of_le (h : leafTotal records ≤ max) : limitLeaves max records = records := by
  rw [limitLeaves_eq, firstLeaves_of_le h, if_neg (by omega), List.append_nil]

theorem limitLeaves_of_lt (h : max < leafTotal records) :
    limitLeaves max records = firstLeaves max records ++ [Record.tooManyFiles] := by
  rw [limitLeaves_eq, if_pos h]

theorem mem_limitLeaves (h : r ∈ limitLeaves max records) :
    r ∈ records ∨ r = Record.tooManyFiles := by
  by_cases hle : leafTotal records ≤ max
  · rw [limitLeaves_of_le hle] at h
    exact Or.inl h
  · rw [limitLeaves_of_lt (by omega), List.mem_append, List.mem_singleton] at h
    exact h.imp_left fun hfirst => (firstLeaves_sublist max records).subset hfirst

theorem mem_limitLeaves_of_isDirectory (h : r ∈ records) (hdir : r.isDirectory = true)
    (max : Nat) : r ∈ limitLeaves max records := by
  by_cases hle : leafTotal records ≤ max
  · rwa [limitLeaves_of_le hle]
  · rw [limitLeaves_of_lt (by omega)]
    exact List.mem_append_left _ (mem_firstLeaves_of_isDirectory h hdir max)

theorem leafTotal_limitLeaves_le (max : Nat) (records : List Record) :
    leafTotal (limitLeaves max records) ≤ max + 1 := by
  by_cases hle : leafTotal records ≤ max
  · rw [limitLeaves_of_le hle]
    omega
  · have hfirst := leafTotal_firstLeaves max records
    have hmark : leafTotal [Record.tooManyFiles] = 1 := leafTotal_of_isFile rfl
    rw [limitLeaves_of_lt (by omega), leafTotal_append]
    omega

end Listing

/-! ## Texts -/

section Text

variable {max : Nat} {text : String}

theorem truncateText_of_le (h : text.length ≤ max) : truncateText max text = text := if_pos h

/-- A text over the bound is cut behind a number of characters, however many bytes they
take. -/
theorem truncateText_of_lt (h : max < text.length) :
    truncateText max text =
      String.ofList (text.toList.take (max - truncationMarker.length)) ++ truncationMarker := by
  unfold truncateText
  rw [if_neg (by omega), Text.beginning_eq]

theorem length_truncateText_le (h : truncationMarker.length ≤ max) (text : String) :
    (truncateText max text).length ≤ max := by
  by_cases hshort : text.length ≤ max
  · rwa [truncateText_of_le hshort]
  · have hkept := List.length_take_le (max - truncationMarker.length) text.toList
    rw [truncateText_of_lt (by omega), String.length_append, String.length_ofList]
    omega

end Text

end ContentPreview
