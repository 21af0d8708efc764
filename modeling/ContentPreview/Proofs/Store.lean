import ContentPreview.Keyed
import ContentPreview.Store

/-!
# The store in memory

What the operations of the store in memory do, as equations.  None of them
fails.  What is stored for one bitstream depends on the operations on that
bitstream alone: an insertion counts if nothing is stored, a deletion leaves
nothing, and handing out identities changes nothing.

## Main definitions

* `Memory.advanceBy` — the memory after a number of identities were handed out.
* `EndsIn` — how a computation ended that may have failed.

## Main results

* `Memory.lookup_insert`, `Memory.lookup_erase` — what is stored afterwards.
* `run_bind_ok`, `run_bind_error` — a computation with a state and errors, taken
  apart at its first step.
-/

namespace ContentPreview

/-! ## Computations with a state and errors -/

section Computations

variable {ε σ α β : Type} {action : ExceptT ε (StateM σ) α} {next : α → ExceptT ε (StateM σ) β}
  {s t : σ}

theorem run_bind_ok {a : α} (h : action.run.run s = (.ok a, t)) :
    (action >>= next).run.run s = (next a).run.run t := by
  rw [ExceptT.run_bind, StateT.run_bind, h]
  rfl

theorem run_get (s : σ) : (get : ExceptT ε (StateM σ) σ).run.run s = (.ok s, s) := rfl

theorem run_bind_error {e : ε} (h : action.run.run s = (.error e, t)) :
    (action >>= next).run.run s = (.error e, t) := by
  rw [ExceptT.run_bind, StateT.run_bind, h]
  rfl

theorem run_map (f : α → β) (action : StateM σ α) (s : σ) :
    (f <$> action).run s = (f (action.run s).1, (action.run s).2) := rfl

/-- A computation ended in a state with `P`, and with an answer with `Q` if it did not
fail. -/
structure EndsIn (P : σ → Prop) (Q : α → Prop) (finished : Except ε α × σ) : Prop where
  state : P finished.2
  answer : ∀ a, finished.1 = .ok a → Q a

theorem EndsIn.bind {P : σ → Prop} {Q : α → Prop} {Q' : β → Prop}
    (h : EndsIn P Q (action.run.run s))
    (hnext : ∀ a t, Q a → P t → EndsIn P Q' ((next a).run.run t)) :
    EndsIn P Q' ((action >>= next).run.run s) := by
  rcases hrun : action.run.run s with ⟨e | a, t⟩
  case error =>
    rw [run_bind_error hrun]
    rw [hrun] at h
    exact ⟨h.state, nofun⟩
  case ok =>
    rw [run_bind_ok hrun]
    rw [hrun] at h
    exact hnext a t (h.answer a rfl) h.state

theorem EndsIn.pure {P : σ → Prop} {Q : α → Prop} {a : α} (ha : Q a) (hs : P s) :
    EndsIn P Q ((pure a : ExceptT ε (StateM σ) α).run.run s) := by
  refine ⟨hs, ?_⟩
  rintro _ ⟨⟩
  exact ha

end Computations

/-! ## The operations -/

namespace Memory

variable (m : Memory) (b : BitstreamId)

/-- The memory after `k` identities were handed out. -/
def advanceBy (k : Nat) : Memory := { m with nextId := m.nextId + k }

theorem advanceBy_advanceBy (j k : Nat) : (m.advanceBy j).advanceBy k = m.advanceBy (j + k) := by
  unfold advanceBy
  rw [Nat.add_assoc]

@[simp] theorem trees_advanceBy (k : Nat) : (m.advanceBy k).trees = m.trees := rfl

theorem run_nextId :
    (Store.nextId : StoreM Memory Nat).run.run m = (.ok m.nextId, m.advanceBy 1) := rfl

theorem run_insertTree (roots : List StoredNode) :
    (Store.insertTree b roots : StoreM Memory InsertOutcome).run.run m =
      (.ok (m.insertAnswer b roots), m.insert b roots) := rfl

theorem run_hasPreview :
    (Store.hasPreview b : StoreM Memory Bool).run.run m = (.ok (m.has b), m) := rfl

theorem run_findRoots :
    (Store.findRoots b : StoreM Memory (List StoredNode)).run.run m = (.ok (m.roots b), m) := rfl

theorem run_deleteTree :
    (Store.deleteTree b : StoreM Memory Nat).run.run m =
      (.ok (StoredNode.totalNodes (m.roots b)), m.erase b) := rfl

/-! ## What is stored -/

variable {m b}

theorem has_eq_false : m.has b = false ↔ m.trees.lookup b = none := by
  unfold has
  cases m.trees.lookup b <;> simp

theorem lookup_insert {roots : List StoredNode} (hne : roots ≠ []) (c : BitstreamId) :
    (m.insert b roots).trees.lookup c =
      if c = b then some ((m.trees.lookup b).getD roots) else m.trees.lookup c := by
  have hempty : roots.isEmpty = false := by simpa using hne
  unfold insert
  cases hfound : m.trees.lookup b with
  | some existing =>
      have hhas : m.has b = true := by simp [has, hfound]
      rw [hempty, hhas]
      by_cases hc : c = b
      · subst hc
        simpa using hfound
      · simp [hc]
  | none =>
      rw [hempty, has_eq_false.2 hfound]
      simp only [Bool.or_self, Bool.false_eq_true, if_false, List.lookup_append]
      by_cases hc : c = b
      · subst hc
        simp [hfound]
      · simp [hc, Keyed.lookup_cons_of_ne hc]

theorem lookup_erase (c : BitstreamId) :
    (m.erase b).trees.lookup c = if c = b then none else m.trees.lookup c := by
  unfold erase
  dsimp only
  induction m.trees with
  | nil => simp
  | cons entry rest ih =>
      obtain ⟨key, roots⟩ := entry
      by_cases hkey : key = b
      · subst hkey
        rw [List.filter_cons_of_neg (by simp), ih]
        by_cases hc : c = key
        · rw [if_pos hc, if_pos hc]
        · rw [if_neg hc, if_neg hc, Keyed.lookup_cons_of_ne hc]
      · rw [List.filter_cons_of_pos (by simpa using hkey)]
        by_cases hc : c = key
        · subst hc
          rw [if_neg hkey, List.lookup_cons_self, List.lookup_cons_self]
        · rw [Keyed.lookup_cons_of_ne hc, Keyed.lookup_cons_of_ne hc, ih]

end Memory

end ContentPreview
