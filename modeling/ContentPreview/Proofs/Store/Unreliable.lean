import ContentPreview.Proofs.Tree.Conversion

/-!
# The store that fails

What the operations of a store do that fails at chosen calls.  A call that fails has done
nothing but count; any other call does what the store in memory does.  So nothing but an
insertion and a deletion can change what is stored, and these two only if they answer
that they have.

The identities that were handed out are no concern here: a preview may use some up and
then fail.

## Main definitions

* `Undisturbed` — nothing that is stored has changed.
* `Gains`, `Grows` — one whole preview was stored, or any number of them.
* `Insertion` — the ways that an insertion ends.

## Main results

* `run_guarded` — a call fails and has done nothing, or does what it does in memory.
* `insertTree_run`, `deleteTree_run` — the two operations that change what is stored.
* `supplies_of_neverFails` — without failures there are always identities to be had.
-/

namespace ContentPreview

namespace Unreliable

/-- Nothing that is stored has changed, and the store fails as before. -/
structure Undisturbed (s t : Unreliable) : Prop where
  trees : t.memory.trees = s.memory.trees
  faults : t.faults = s.faults

/-- A preview was stored whole, as the only change. -/
structure Gains (s t : Unreliable) (i : BitstreamId) (roots : List View) : Prop where
  trees : ∃ stored, stored.map StoredNode.toView = roots ∧
    t.memory.trees = s.memory.trees ++ [(i, stored)]
  faults : t.faults = s.faults

/-- Previews were stored whole, each of them one of `P`, as the only change. -/
structure Grows (P : BitstreamId → List View → Prop) (s t : Unreliable) : Prop where
  trees : ∃ added, t.memory.trees = s.memory.trees ++ added ∧
    ∀ entry ∈ added, P entry.1 (entry.2.map StoredNode.toView)
  faults : t.faults = s.faults

/-- No operation fails. -/
def NeverFails (s : Unreliable) : Prop := ∀ operation n, s.faults.fails operation n = false

/-- The store after a call was counted. -/
def counted (s : Unreliable) : Unreliable := { s with calls := s.calls + 1 }

variable {s t u : Unreliable} {i : BitstreamId} {roots : List View}

theorem Undisturbed.refl (s : Unreliable) : Undisturbed s s := ⟨rfl, rfl⟩

theorem Undisturbed.trans (h : Undisturbed s t) (h' : Undisturbed t u) : Undisturbed s u :=
  ⟨h'.trees.trans h.trees, h'.faults.trans h.faults⟩

theorem Undisturbed.gains (h : Undisturbed s t) (h' : Gains t u i roots) : Gains s u i roots := by
  obtain ⟨stored, hroots, htrees⟩ := h'.trees
  exact ⟨⟨stored, hroots, by rw [htrees, h.trees]⟩, h'.faults.trans h.faults⟩

section Grows

variable {P : BitstreamId → List View → Prop}

theorem Undisturbed.grows (h : Undisturbed s t) : Grows P s t :=
  ⟨⟨[], by rw [List.append_nil]; exact h.trees, nofun⟩, h.faults⟩

theorem Gains.grows (h : Gains s t i roots) (hroots : P i roots) : Grows P s t := by
  obtain ⟨stored, rfl, htrees⟩ := h.trees
  refine ⟨⟨[(i, stored)], htrees, ?_⟩, h.faults⟩
  intro entry hentry
  rwa [List.mem_singleton.1 hentry]

theorem Grows.trans (h : Grows P s t) (h' : Grows P t u) : Grows P s u := by
  obtain ⟨added, htrees, hadded⟩ := h.trees
  obtain ⟨more, htrees', hmore⟩ := h'.trees
  refine ⟨⟨added ++ more, by rw [htrees', htrees, List.append_assoc], ?_⟩,
    h'.faults.trans h.faults⟩
  intro entry hentry
  exact (List.mem_append.1 hentry).elim (hadded entry) (hmore entry)

theorem Grows.mono {Q : BitstreamId → List View → Prop} (h : Grows P s t)
    (hPQ : ∀ i roots, P i roots → Q i roots) : Grows Q s t := by
  obtain ⟨added, htrees, hadded⟩ := h.trees
  exact ⟨⟨added, htrees, fun entry hentry => hPQ _ _ (hadded entry hentry)⟩, h.faults⟩

/-- What was stored for a bitstream is still stored for it. -/
theorem Grows.lookup {stored : List StoredNode} (h : Grows P s t)
    (hfound : s.memory.trees.lookup i = some stored) :
    t.memory.trees.lookup i = some stored := by
  obtain ⟨added, htrees, -⟩ := h.trees
  rw [htrees, List.lookup_append, hfound, Option.some_or]

end Grows

/-- The ways that an insertion ends which offers a preview for a bitstream. -/
inductive Insertion {ε : Type} (s : Unreliable) (i : BitstreamId) (roots : List View) :
    Except ε InsertOutcome → Unreliable → Prop where
  | failed {e : ε} {t : Unreliable} (hfails : ¬ s.NeverFails) (h : Undisturbed s t) :
      Insertion s i roots (.error e) t
  | refused {existing : List StoredNode} {t : Unreliable}
      (hfound : s.memory.trees.lookup i = some existing) (h : Undisturbed s t) :
      Insertion s i roots (.ok (.alreadyPresent existing)) t
  | stored {t : Unreliable} (hfree : s.memory.trees.lookup i = none) (h : Gains s t i roots) :
      Insertion s i roots (.ok .inserted) t

/-- An insertion disturbs nothing, or it answers that it stored the preview. -/
theorem Insertion.undisturbed_or_gains {ε : Type} {answer : Except ε InsertOutcome}
    (h : Insertion s i roots answer t) :
    Undisturbed s t ∧ answer ≠ .ok .inserted ∨
      answer = .ok .inserted ∧ s.memory.trees.lookup i = none ∧ Gains s t i roots := by
  cases h with
  | failed _ hsame => exact Or.inl ⟨hsame, nofun⟩
  | refused _ hsame => exact Or.inl ⟨hsame, nofun⟩
  | stored hfree hgains => exact Or.inr ⟨rfl, hfree, hgains⟩

/-! ## One operation -/

section Operations

variable {α : Type}

theorem run_attempt (operation : StoreOperation) (s : Unreliable) :
    (attempt operation).run.run s =
      (if s.faults.fails operation s.calls then
        .error { message := operation.label ++ " failed" } else .ok (), s.counted) := by
  unfold attempt
  rw [run_bind_ok (run_get s)]
  cases hfails : s.faults.fails operation s.calls <;> rfl

theorem run_onMemory (action : StoreM Memory α) (s : Unreliable) :
    (onMemory action).run.run s =
      ((action.run.run s.memory).1, { s with memory := (action.run.run s.memory).2 }) := by
  unfold onMemory
  rw [run_bind_ok (run_get s)]
  rcases hrun : action.run.run s.memory with ⟨e | a, m⟩
  all_goals
    have hrun' : action.run s.memory = _ := hrun
    rw [hrun']
    rfl

/-- A call fails and has done nothing, or it does what it does in memory. -/
theorem run_guarded (operation : StoreOperation) (action : StoreM Memory α) (s : Unreliable) :
    let guarded : StoreM Unreliable α := do
      attempt operation
      onMemory action
    (¬ s.NeverFails ∧ ∃ e, guarded.run.run s = (.error e, s.counted)) ∨
      guarded.run.run s = ((action.run.run s.memory).1,
        { s.counted with memory := (action.run.run s.memory).2 }) := by
  intro guarded
  have hattempt := run_attempt operation s
  cases hfails : s.faults.fails operation s.calls with
  | true =>
      left
      rw [hfails, if_pos rfl] at hattempt
      refine ⟨fun hnever => ?_, _, run_bind_error hattempt⟩
      rw [hnever operation s.calls] at hfails
      cases hfails
  | false =>
      right
      rw [hfails, if_neg (by simp)] at hattempt
      exact (run_bind_ok hattempt).trans (run_onMemory action s.counted)

theorem undisturbed_counted (s : Unreliable) : Undisturbed s s.counted := ⟨rfl, rfl⟩

theorem nextId_run (s : Unreliable) :
    Undisturbed s ((Store.nextId : StoreM Unreliable Nat).run.run s).2 ∧
      (s.NeverFails → ∃ id, ((Store.nextId : StoreM Unreliable Nat).run.run s).1 = .ok id) := by
  rcases run_guarded .nextId Store.nextId s with ⟨hfails, e, hrun⟩ | hrun
  · rw [show (Store.nextId : StoreM Unreliable Nat).run.run s = _ from hrun]
    exact ⟨undisturbed_counted s, fun hnever => absurd hnever hfails⟩
  · rw [show (Store.nextId : StoreM Unreliable Nat).run.run s = _ from hrun]
    exact ⟨⟨rfl, rfl⟩, fun _ => ⟨s.memory.nextId, rfl⟩⟩

theorem hasPreview_run (i : BitstreamId) (s : Unreliable) :
    Undisturbed s ((Store.hasPreview i : StoreM Unreliable Bool).run.run s).2 ∧
      (s.NeverFails → s.faults.overlooks = true →
        ((Store.hasPreview i : StoreM Unreliable Bool).run.run s).1 = .ok false) := by
  have hattempt := run_attempt .hasPreview s
  cases hfails : s.faults.fails .hasPreview s.calls with
  | true =>
      rw [hfails, if_pos rfl] at hattempt
      rw [show (Store.hasPreview i : StoreM Unreliable Bool).run.run s = _ from
        run_bind_error hattempt]
      refine ⟨undisturbed_counted s, fun hnever => ?_⟩
      rw [hnever .hasPreview s.calls] at hfails
      cases hfails
  | false =>
      rw [hfails, if_neg (by simp)] at hattempt
      rw [show (Store.hasPreview i : StoreM Unreliable Bool).run.run s = _ from
        run_bind_ok hattempt, run_bind_ok (run_get s.counted)]
      cases hoverlooks : s.faults.overlooks with
      | true =>
          rw [if_pos (by exact hoverlooks)]
          exact ⟨undisturbed_counted s, fun _ _ => rfl⟩
      | false =>
          rw [if_neg (by simpa [counted] using hoverlooks), run_onMemory]
          exact ⟨⟨rfl, rfl⟩, fun _ hnot => absurd hnot (by simp)⟩

theorem findRoots_run (i : BitstreamId) (s : Unreliable) :
    Undisturbed s ((Store.findRoots i : StoreM Unreliable (List StoredNode)).run.run s).2 := by
  rcases run_guarded .findRoots (Store.findRoots i) s with ⟨-, e, hrun⟩ | hrun
  all_goals
    rw [show (Store.findRoots i : StoreM Unreliable (List StoredNode)).run.run s = _ from hrun]
    exact ⟨rfl, rfl⟩

theorem insertTree_run (i : BitstreamId) {stored : List StoredNode} (hne : stored ≠ [])
    (s : Unreliable) :
    Insertion s i (stored.map StoredNode.toView)
      ((Store.insertTree i stored : StoreM Unreliable InsertOutcome).run.run s).1
      ((Store.insertTree i stored : StoreM Unreliable InsertOutcome).run.run s).2 := by
  rcases run_guarded .insertTree (Store.insertTree i stored) s with ⟨hfails, e, hrun⟩ | hrun
  · rw [show (Store.insertTree i stored : StoreM Unreliable InsertOutcome).run.run s = _ from hrun]
    exact .failed hfails (undisturbed_counted s)
  · have hempty : stored.isEmpty = false := by simpa using hne
    rw [show (Store.insertTree i stored : StoreM Unreliable InsertOutcome).run.run s = _ from hrun,
      Memory.run_insertTree]
    unfold Memory.insertAnswer Memory.insert Memory.has
    rw [hempty]
    cases hfound : s.memory.trees.lookup i with
    | some existing => exact .refused hfound ⟨rfl, rfl⟩
    | none => exact .stored hfound ⟨⟨stored, rfl, rfl⟩, rfl⟩

/-- A deletion fails and has changed nothing, or it has erased what it says. -/
theorem deleteTree_run (i : BitstreamId) (s : Unreliable) :
    let deleted := (Store.deleteTree i : StoreM Unreliable Nat).run.run s
    (∃ e, deleted.1 = .error e) ∧ Undisturbed s deleted.2 ∨
      (∃ nodes, deleted.1 = .ok nodes) ∧
        deleted.2.memory.trees = s.memory.trees.filter (·.1 != i) ∧
        deleted.2.faults = s.faults := by
  intro deleted
  rcases run_guarded .deleteTree (Store.deleteTree i) s with ⟨-, e, hrun⟩ | hrun
  · have hdeleted : deleted = _ := hrun
    rw [hdeleted]
    exact Or.inl ⟨⟨e, rfl⟩, undisturbed_counted s⟩
  · have hdeleted : deleted = _ := hrun
    rw [hdeleted]
    exact Or.inr ⟨⟨_, rfl⟩, rfl, rfl⟩

/-- Without failures there are always identities to be had. -/
theorem supplies_of_neverFails (h : s.NeverFails) (k : Nat) : Store.Supplies k s := by
  induction k generalizing s with
  | zero => trivial
  | succ k ih =>
      obtain ⟨hsame, hanswers⟩ := nextId_run s
      obtain ⟨id, hid⟩ := hanswers h
      refine ⟨id, _, Prod.ext hid rfl, ih fun operation n => ?_⟩
      rw [hsame.faults]
      exact h operation n

end Operations

end Unreliable

end ContentPreview
