import ContentPreview.Proofs.Service.Sweeping

/-!
# When an operation stores

Over any store, an operation on one bitstream asks the store whether there is a preview.
Told that there is none, it has nothing left to do but to store the one that the bitstream
offers, and its answer is read off the outcome of that; if the bitstream offers none, the
store is not called again.  Nothing is assumed about the store here: it may fail, and its
answer to the question may be wrong or out of date.

Over the store in memory this leaves two ways.  The operation leaves the store exactly as
it was, the next identity included, or it stores the preview that the bitstream offers.  In
the second case nothing was stored before, and the answer tells what was stored: the preview
itself, or the number of its nodes.

## Main results

* `getOrGenerate_of_offers`, `ensure_of_offers` — what is left is to store the preview.
* `getOrGenerate_of_no_offer`, `ensure_of_no_offer` — the store stays as it is.
* `getOrGenerate_stores`, `ensure_stores` — the two ways over the store in memory.
-/

namespace ContentPreview

namespace Service

/-! ## Any store -/

variable {σ : Type} [Store σ] {svc : Service} {source : Source} {b : Bitstream}
  {s t : ServiceState σ}

/-- The preview to show after an attempt to store the one that was made. -/
def shownAfter (made : List View) : InsertOutcome → List View
  | .inserted => made
  | .alreadyPresent existing => existing.map StoredNode.toView

/-- What became of a preview after an attempt to store it. -/
def outcomeAfter (made : List View) : InsertOutcome → Outcome
  | .inserted => .stored (View.totalNodes made)
  | .alreadyPresent _ => .existing

theorem eq_inserted_of_outcomeAfter {made : List View} {nodes : Nat}
    {answer : Except PreviewError InsertOutcome}
    (h : answer.map (outcomeAfter made) = .ok (.stored nodes)) : answer = .ok .inserted := by
  rcases answer with e | _ | existing
  case ok.inserted => rfl
  all_goals cases h

section

variable (hcheck : (onStore (Store.hasPreview b.id) : ServiceM σ Bool).run.run s = (.ok false, t))

include hcheck

theorem getOrGenerate_of_offers {roots : List View} (h : svc.Offers source b roots)
    (hload : svc.config.generateOnPageLoad = true) :
    ∃ opens ledger,
      let kept := (persist b.id roots : ServiceM σ InsertOutcome).run.run ⟨t.store, opens, ledger⟩
      (svc.getOrGenerate source b).run.run s = (kept.1.map (shownAfter roots), kept.2) := by
  obtain ⟨opens, ledger, hgenerate⟩ := generateFrom_run svc source b t
  rw [h.made] at hgenerate
  refine ⟨opens, ledger, ?_⟩
  intro kept
  unfold getOrGenerate
  rw [h.admitted, if_neg (by simp), run_bind_ok hcheck, if_neg (by simp), hload,
    if_neg (by simp), run_bind_ok hgenerate, if_neg (by simp [h.nonempty, h.persistable])]
  rcases hkept : kept with ⟨e | outcome, u⟩
  case error => exact run_bind_error hkept
  case ok =>
    rw [run_bind_ok hkept]
    cases outcome <;> rfl

theorem ensure_of_offers {roots : List View} (h : svc.Offers source b roots) :
    ∃ opens ledger,
      let kept := (persist b.id roots : ServiceM σ InsertOutcome).run.run ⟨t.store, opens, ledger⟩
      (svc.ensure source b).run.run s = (kept.1.map (outcomeAfter roots), kept.2) := by
  obtain ⟨opens, ledger, hgenerate⟩ := generateFrom_run svc source b t
  rw [h.made] at hgenerate
  refine ⟨opens, ledger, ?_⟩
  intro kept
  unfold ensure
  rw [h.admitted, if_neg (by simp), run_bind_ok hcheck, if_neg (by simp), if_neg h.supported,
    if_neg (by simp [h.persistable]), run_bind_ok hgenerate, if_neg (by simp [h.nonempty])]
  rcases hkept : kept with ⟨e | outcome, u⟩
  case error => exact run_bind_error hkept
  case ok =>
    rw [run_bind_ok hkept]
    cases outcome <;> rfl

theorem getOrGenerate_of_no_offer (hgate : svc.canPreview b = true)
    (h : svc.config.generateOnPageLoad = true → ∀ roots, ¬ svc.Offers source b roots) :
    ((svc.getOrGenerate source b).run.run s).2.store = t.store := by
  unfold getOrGenerate
  rw [hgate, if_neg (by simp), run_bind_ok hcheck, if_neg (by simp)]
  cases hload : svc.config.generateOnPageLoad with
  | false => rfl
  | true =>
      obtain ⟨opens, ledger, hgenerate⟩ := generateFrom_run svc source b t
      rw [if_neg (by simp)]
      cases hmade : svc.made source b with
      | error e =>
          rw [hmade] at hgenerate
          rw [run_bind_error hgenerate]
      | ok roots =>
          rw [hmade] at hgenerate
          rw [run_bind_ok hgenerate]
          by_cases hleft : (roots.isEmpty || !b.kind.isPersistable) = true
          · rw [if_pos hleft]
            rfl
          · obtain ⟨hne, hkind⟩ : roots ≠ [] ∧ b.kind.isPersistable = true := by
              simpa using hleft
            exact absurd (offers_of_made hgate hkind hmade hne) (h hload roots)

theorem ensure_of_no_offer (hgate : svc.canPreview b = true)
    (h : ∀ roots, ¬ svc.Offers source b roots) :
    ((svc.ensure source b).run.run s).2.store = t.store ∧
      ∀ nodes, ((svc.ensure source b).run.run s).1 ≠ .ok (.stored nodes) := by
  unfold ensure
  rw [hgate, if_neg (by simp), run_bind_ok hcheck, if_neg (by simp)]
  by_cases hunsupported : b.kind = .unsupported
  · rw [if_pos hunsupported]
    exact ⟨rfl, nofun⟩
  rw [if_neg hunsupported]
  cases hkind : b.kind.isPersistable with
  | false => exact ⟨rfl, nofun⟩
  | true =>
      obtain ⟨opens, ledger, hgenerate⟩ := generateFrom_run svc source b t
      rw [if_neg (by simp)]
      cases hmade : svc.made source b with
      | error e =>
          rw [hmade] at hgenerate
          rw [run_bind_error hgenerate]
          exact ⟨rfl, nofun⟩
      | ok roots =>
          rw [hmade] at hgenerate
          rw [run_bind_ok hgenerate]
          by_cases hempty : roots.isEmpty = true
          · rw [if_pos hempty]
            exact ⟨rfl, nofun⟩
          · have hne : roots ≠ [] := by simpa using hempty
            exact absurd (offers_of_made hgate hkind hmade hne) (h roots)

end

end Service

namespace Service

/-! ## The store in memory -/

/-- A verdict of a number of nodes is about a preview that is offered. -/
theorem offers_of_verdict {svc : Service} {source : Source} {b : Bitstream} {nodes : Nat}
    (hgate : svc.canPreview b = true) (h : svc.verdict source b = .ok (.stored nodes)) :
    ∃ roots, svc.Offers source b roots ∧ nodes = View.totalNodes roots := by
  unfold verdict at h
  by_cases hunsupported : b.kind = .unsupported
  · rw [if_pos hunsupported] at h
    cases h
  rw [if_neg hunsupported] at h
  cases hkind : b.kind.isPersistable with
  | false =>
      rw [hkind] at h
      cases h
  | true =>
      rw [if_neg (by simp [hkind])] at h
      cases hmade : svc.made source b with
      | error e =>
          rw [hmade] at h
          cases h
      | ok roots =>
          rw [hmade] at h
          change Except.ok (if roots.isEmpty then Outcome.empty else _) = _ at h
          by_cases hempty : roots.isEmpty = true
          · rw [if_pos hempty] at h
            cases h
          · rw [if_neg hempty, Except.ok.injEq, Outcome.stored.injEq] at h
            have hne : roots ≠ [] := by simpa using hempty
            exact ⟨roots, offers_of_made hgate hkind hmade hne, h.symm⟩

section

variable (svc : Service) (source : Source) (b : Bitstream) (s : ServiceState Memory)

/-- Showing a preview leaves the store as it was, or stores what it shows. -/
theorem getOrGenerate_stores :
    ((svc.getOrGenerate source b).run.run s).2.store = s.store ∨
      ∃ roots, svc.Offers source b roots ∧ s.store.has b.id = false ∧
        ((svc.getOrGenerate source b).run.run s).1 = .ok roots ∧
        ((svc.getOrGenerate source b).run.run s).2.store = s.store.keep b.id roots := by
  rw [getOrGenerate_store]
  cases hload : svc.config.generateOnPageLoad with
  | false => exact Or.inl (Memory.fill_none _ _)
  | true =>
      rw [if_pos rfl]
      cases hkeepable : svc.keepable? source b with
      | none => exact Or.inl (Memory.fill_none _ _)
      | some roots =>
          cases hhas : s.store.has b.id with
          | true => exact Or.inl (if_pos hhas)
          | false =>
              have hoffers := keepable?_eq_some_iff.1 hkeepable
              obtain ⟨opens, ledger, hrun⟩ :=
                getOrGenerate_of_missing svc source b s hoffers.admitted hhas hload
              refine Or.inr ⟨roots, hoffers, rfl, ?_, Memory.fill_some hhas⟩
              rw [hrun, hoffers.made]

/-- Making sure of a preview leaves the store as it was, or stores what is offered and
reports its nodes. -/
theorem ensure_stores :
    (((svc.ensure source b).run.run s).2.store = s.store ∧
      ∀ nodes, ((svc.ensure source b).run.run s).1 ≠ .ok (.stored nodes)) ∨
      ∃ roots, svc.Offers source b roots ∧ s.store.has b.id = false ∧
        ((svc.ensure source b).run.run s).1 = .ok (.stored (View.totalNodes roots)) ∧
        ((svc.ensure source b).run.run s).2.store = s.store.keep b.id roots := by
  by_cases hstored : ∃ nodes, ((svc.ensure source b).run.run s).1 = .ok (.stored nodes)
  · right
    obtain ⟨nodes, hanswer⟩ := hstored
    cases hgate : svc.canPreview b with
    | false =>
        rw [ensure_of_denied svc source b s hgate] at hanswer
        cases hanswer
    | true =>
        cases hshown : s.store.shown? b.id with
        | some roots =>
            rw [ensure_of_shown svc source b s hgate hshown] at hanswer
            cases hanswer
        | none =>
            have hhas := s.store.shown?_eq_none.1 hshown
            obtain ⟨opens, ledger, hrun⟩ := ensure_of_missing svc source b s hgate hhas
            rw [hrun] at hanswer ⊢
            dsimp only at hanswer ⊢
            obtain ⟨roots, hoffers, rfl⟩ := offers_of_verdict hgate hanswer
            refine ⟨roots, hoffers, hhas, hanswer, ?_⟩
            rw [keepable?_eq_some_iff.2 hoffers]
            exact Memory.fill_some hhas
  · left
    have hnot (nodes : Nat) : ((svc.ensure source b).run.run s).1 ≠ .ok (.stored nodes) :=
      fun h => hstored ⟨nodes, h⟩
    exact ⟨ensure_store_of_not_stored svc source b s hnot, hnot⟩

end

end Service

end ContentPreview
