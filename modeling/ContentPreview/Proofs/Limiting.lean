import ContentPreview.Proofs.Bounds

/-!
# Limiting a listing

Whether a limited listing keeps a record can be told from its position: a directory is
kept, and a file if fewer than `max` files stand in front of it.  A record uses up as much
of the bound as it has files, so what the front of a listing uses up is missing behind it.

The record for files left out is a file too.  It stands behind a full front, so a second
bound that is not larger drops it together with what else is too much, and puts it back; a
larger one keeps the whole.  Hence bounds in a row are as good as the smallest of them.

## Main definitions

* `isKept`, `keptPositions` — the positions of the records that are kept.

## Main results

* `firstLeaves_eq_map_get` — the kept records are those at the kept positions.
* `firstLeaves_append`, `firstLeaves_firstLeaves` — two listings in a row, and two bounds.
* `limitLeaves_exact` — what a limited listing consists of, and what a second bound does.
-/

namespace ContentPreview

/-- Whether the record at a position is a directory or one of the first `max` files. -/
def isKept (max : Nat) (records : List Record) (i : Fin records.length) : Bool :=
  records[i].isDirectory || leafTotal (records.take i) < max

/-- The positions of the directories of a listing and of its first `max` files. -/
def keptPositions (max : Nat) (records : List Record) : List (Fin records.length) :=
  (List.finRange records.length).filter (isKept max records)

section Listing

variable {max : Nat} {records : List Record}

/-! ## Positions -/

theorem isKept_succ (max : Nat) (r : Record) (rest : List Record) (i : Fin rest.length) :
    isKept max (r :: rest) i.succ = isKept (max - leafTotal [r]) rest i := by
  have hfewer : leafTotal (r :: rest.take i) < max ↔
      leafTotal (rest.take i) < max - leafTotal [r] := by
    rw [leafTotal_cons]
    omega
  change (rest[i].isDirectory || decide (leafTotal (r :: rest.take i) < max)) = _
  rw [decide_eq_decide.2 hfewer]
  rfl

theorem keptPositions_cons (max : Nat) (r : Record) (rest : List Record) :
    keptPositions max (r :: rest) =
      if r.isDirectory || 0 < max then
        0 :: (keptPositions (max - leafTotal [r]) rest).map Fin.succ
      else (keptPositions (max - leafTotal [r]) rest).map Fin.succ := by
  have hfirst : isKept max (r :: rest) 0 = (r.isDirectory || decide (0 < max)) := rfl
  have hlater : isKept max (r :: rest) ∘ Fin.succ = isKept (max - leafTotal [r]) rest :=
    funext (isKept_succ max r rest)
  change (List.finRange (rest.length + 1)).filter (isKept max (r :: rest)) = _
  rw [List.finRange_succ, List.filter_cons, List.filter_map, hfirst, hlater]
  rfl

/-- The records that are kept are those at the kept positions. -/
theorem firstLeaves_eq_map_get (max : Nat) (records : List Record) :
    firstLeaves max records = (keptPositions max records).map records.get := by
  induction records generalizing max with
  | nil => rfl
  | cons r rest ih =>
      have hrest : ((keptPositions (max - leafTotal [r]) rest).map Fin.succ).map (r :: rest).get =
          firstLeaves (max - leafTotal [r]) rest := by
        rw [List.map_map, ih]
        rfl
      rw [firstLeaves_cons, keptPositions_cons]
      split
      · rw [List.map_cons, hrest]
        rfl
      · exact hrest.symm

/-! ## Two bounds -/

theorem firstLeaves_append (max : Nat) (xs ys : List Record) :
    firstLeaves max (xs ++ ys) = firstLeaves max xs ++ firstLeaves (max - leafTotal xs) ys := by
  induction xs generalizing max with
  | nil => rfl
  | cons r rest ih =>
      have hleft : max - leafTotal (r :: rest) = max - leafTotal [r] - leafTotal rest := by
        rw [leafTotal_cons]
        omega
      rw [List.cons_append, firstLeaves_cons, firstLeaves_cons, ih, hleft]
      split <;> rfl

theorem firstLeaves_firstLeaves (m n : Nat) (records : List Record) :
    firstLeaves n (firstLeaves m records) = firstLeaves (min m n) records := by
  induction records generalizing m n with
  | nil => rfl
  | cons r rest ih =>
      have hleft : min m n - leafTotal [r] = min (m - leafTotal [r]) (n - leafTotal [r]) := by
        omega
      rw [firstLeaves_cons m, firstLeaves_cons (min m n), hleft]
      by_cases hm : (r.isDirectory || decide (0 < m)) = true
      · have hboth : (r.isDirectory || decide (0 < min m n)) =
            (r.isDirectory || decide (0 < n)) := by
          cases hr : r.isDirectory with
          | true => rfl
          | false =>
              have hpos : 0 < m := by simpa [hr] using hm
              have hiff : 0 < min m n ↔ 0 < n := by omega
              rw [decide_eq_decide.2 hiff]
        rw [if_pos hm, firstLeaves_cons, ih, hboth]
      · have hzero : m = 0 := by
          simp only [Bool.or_eq_true, decide_eq_true_eq, not_or] at hm
          omega
        subst hzero
        rw [if_neg hm, Nat.zero_min, if_neg hm, ih, Nat.zero_sub, Nat.zero_min, Nat.zero_min]

/-- Two bounds in a row are as good as the smaller one.  The mark is the file behind a full
front, so a second bound that is not larger drops it before anything else. -/
theorem limitLeaves_limitLeaves (m n : Nat) (records : List Record) :
    limitLeaves n (limitLeaves m records) = limitLeaves (min m n) records := by
  by_cases hcut : m < leafTotal records
  · have hfirst : leafTotal (firstLeaves m records) = m := by
      rw [leafTotal_firstLeaves]
      omega
    have hmark : leafTotal [Record.tooManyFiles] = 1 := leafTotal_of_isFile rfl
    have htotal : leafTotal (limitLeaves m records) = m + 1 := by
      rw [limitLeaves_of_lt hcut, leafTotal_append, hfirst, hmark]
    by_cases hn : m < n
    · rw [limitLeaves_of_le (by omega), Nat.min_eq_left (by omega)]
    · have hdrop : firstLeaves (n - m) [Record.tooManyFiles] = [] := by
        rw [Nat.sub_eq_zero_of_le (by omega)]
        rfl
      rw [limitLeaves_of_lt (by omega), limitLeaves_of_lt hcut, firstLeaves_append,
        firstLeaves_firstLeaves, hfirst, hdrop, List.append_nil, limitLeaves_of_lt (by omega)]
  · have hle : leafTotal records ≤ m := by omega
    rw [limitLeaves_of_le hle]
    by_cases hn : m < n
    · rw [limitLeaves_of_le (by omega), limitLeaves_of_le (by omega)]
    · rw [Nat.min_eq_right (by omega)]

end Listing

/-- **Limiting is exact and composes.**  A limited listing has the records at the positions
of the directories and of the first `max` files, in their order, and behind them one
record for files left out exactly if there are more than `max` files.  Two bounds in a row
are as good as the smaller one: the record for files left out, which the second bound counts
as a file, is neither doubled nor moved nor lost. -/
theorem limitLeaves_exact (records : List Record) :
    (∀ max, limitLeaves max records =
        (keptPositions max records).map records.get ++
          if max < leafTotal records then [Record.tooManyFiles] else []) ∧
      ∀ m n, limitLeaves n (limitLeaves m records) = limitLeaves (min m n) records := by
  refine ⟨fun max => ?_, fun m n => limitLeaves_limitLeaves m n records⟩
  rw [limitLeaves_eq, firstLeaves_eq_map_get]

/-- A listing that is cut, cut again at the mark, and cut to no files at all. -/
example :
    let a := Record.file "a" 1
    let d := Record.directory "d"
    let b := Record.file "d/b" 2
    let e := Record.directory "e"
    limitLeaves 1 [a, d, b, e] = [a, d, e, Record.tooManyFiles] ∧
      limitLeaves 1 (limitLeaves 1 [a, d, b, e]) = [a, d, e, Record.tooManyFiles] ∧
      limitLeaves 0 (limitLeaves 1 [a, d, b, e]) = [d, e, Record.tooManyFiles] := by
  decide

end ContentPreview
