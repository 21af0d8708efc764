/-!
# Loops and runs

A loop is told by its turn: from one state to the next, or nothing when the loop is over.
How often it turns and where it ends are then facts about the turn alone.  A measure that
every turn lowers makes the loop end; where every turn lowers it by one, it counts the turns;
and what every turn keeps holds at the end if it held at the start.

A run is told by its steps: a list of actions, each of which answers and leaves a state
behind.  Its history pairs each action with the answer to it.

## Main definitions

* `EndsAfter` — a loop is over after a number of turns, in a state.
* `historyOf` — a run with its history.

## Main results

* `exists_endsAfter` — a loop ends if a measure goes down.
* `EndsAfter.keeps`, `EndsAfter.measure_eq` — an invariant, and the number of turns.
* `historyOf_keeps_while`, `historyOf_keeps` — an invariant of a run.
* `exists_of_mem_historyOf` — an entry of a history is an action with its answer.
-/

namespace ContentPreview

/-! ## Loops -/

/-- A loop that starts in one state is over after `n` turns, in another one. -/
inductive EndsAfter {σ : Type} (turn : σ → Option σ) : Nat → σ → σ → Prop
  | ended {s : σ} (h : turn s = none) : EndsAfter turn 0 s s
  | more {s next last : σ} {n : Nat} (h : turn s = some next)
      (rest : EndsAfter turn n next last) : EndsAfter turn (n + 1) s last

section

variable {σ : Type} {turn : σ → Option σ} {s last : σ} {n : Nat}

/-- A loop ends if a measure goes down with every turn. -/
theorem exists_endsAfter (measure : σ → Nat)
    (hturn : ∀ s next, turn s = some next → measure next < measure s) (s : σ) :
    ∃ n last, EndsAfter turn n s last := by
  induction hk : measure s using Nat.strongRecOn generalizing s with
  | ind k ih =>
      cases hs : turn s with
      | none => exact ⟨0, s, .ended hs⟩
      | some next =>
          have hless : measure next < k := hk ▸ hturn s next hs
          obtain ⟨n, last, hlast⟩ := ih (measure next) hless next rfl
          exact ⟨n + 1, last, .more hs hlast⟩

namespace EndsAfter

theorem turn_eq_none (h : EndsAfter turn n s last) : turn last = none := by
  induction h with
  | ended h => exact h
  | more _ _ ih => exact ih

/-- What every turn keeps holds at the end. -/
theorem keeps {P : σ → Prop} (h : EndsAfter turn n s last)
    (hturn : ∀ s next, turn s = some next → P s → P next) (hs : P s) : P last := by
  induction h with
  | ended => exact hs
  | more hnext _ ih => exact ih (hturn _ _ hnext hs)

/-- A measure that every turn lowers by one counts the turns. -/
theorem measure_eq (h : EndsAfter turn n s last) (measure : σ → Nat)
    (hturn : ∀ s next, turn s = some next → measure next + 1 = measure s) :
    measure last + n = measure s := by
  induction h with
  | ended => rfl
  | more hnext _ ih =>
      have hone := hturn _ _ hnext
      omega

end EndsAfter

end

/-! ## Runs -/

/-- Performs one action after the other and notes the answer to each. -/
def historyOf {σ κ α : Type} (perform : κ → StateM σ α) : List κ → StateM σ (List (κ × α))
  | [] => return []
  | a :: rest => do
    let answer ← perform a
    return (a, answer) :: (← historyOf perform rest)

section

variable {σ κ α : Type} {perform : κ → StateM σ α} {s : σ}

theorem historyOf_cons (a : κ) (rest : List κ) (s : σ) :
    (historyOf perform (a :: rest)).run s =
      ((a, ((perform a).run s).1) :: ((historyOf perform rest).run ((perform a).run s).2).1,
        ((historyOf perform rest).run ((perform a).run s).2).2) := rfl

/-- What every action keeps that is answered in a certain way holds after a run in which all
are answered so. -/
theorem historyOf_keeps_while {P : σ → Prop} {Q : κ → α → Prop}
    (hstep : ∀ a s, Q a ((perform a).run s).1 → P s → P ((perform a).run s).2)
    {actions : List κ} (hall : ∀ e ∈ ((historyOf perform actions).run s).1, Q e.1 e.2)
    (h : P s) : P ((historyOf perform actions).run s).2 := by
  induction actions generalizing s with
  | nil => exact h
  | cons a rest ih =>
      rw [historyOf_cons] at hall ⊢
      have hnext := hstep a s (hall _ List.mem_cons_self) h
      exact ih (fun e he => hall e (List.mem_cons_of_mem _ he)) hnext

/-- What every action keeps holds after a run. -/
theorem historyOf_keeps {P : σ → Prop} (hstep : ∀ a s, P s → P ((perform a).run s).2)
    (actions : List κ) (h : P s) : P ((historyOf perform actions).run s).2 :=
  historyOf_keeps_while (Q := fun _ _ => True) (fun a s _ => hstep a s) (fun _ _ => trivial) h

/-- The state after a run is the state after its second part from the state after its
first. -/
theorem historyOf_append (xs ys : List κ) (s : σ) :
    ((historyOf perform (xs ++ ys)).run s).2 =
      ((historyOf perform ys).run ((historyOf perform xs).run s).2).2 := by
  induction xs generalizing s with
  | nil => rfl
  | cons a rest ih => exact ih ((perform a).run s).2

/-- An entry of a history is an action with its answer at its turn. -/
theorem exists_of_mem_historyOf {actions : List κ} {e : κ × α}
    (h : e ∈ ((historyOf perform actions).run s).1) :
    ∃ before later, actions = before ++ e.1 :: later ∧
      e.2 = ((perform e.1).run ((historyOf perform before).run s).2).1 := by
  induction actions generalizing s with
  | nil => cases h
  | cons a rest ih =>
      rw [historyOf_cons] at h
      rcases List.mem_cons.1 h with rfl | hrest
      · exact ⟨[], rest, rfl, rfl⟩
      · obtain ⟨before, later, hactions, hanswer⟩ := ih hrest
        exact ⟨a :: before, later, by rw [hactions]; rfl, hanswer⟩

end

end ContentPreview
