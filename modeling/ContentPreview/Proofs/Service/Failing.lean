import ContentPreview.Proofs.Service.Interaction
import ContentPreview.Proofs.Service.Stored
import ContentPreview.Proofs.Service.Storing
import ContentPreview.Proofs.Store.Unreliable

/-!
# A service over a store that fails

A call to the store may fail at any point of an operation, and the check for a preview may
overlook one.  An operation on one bitstream still ends in one of two ways: nothing that
is stored has changed, or the whole preview that the bitstream offers was stored where
there was none, and the answer says so.

The conversion of a preview asks for one identity after the other.  How far it gets makes
no difference, because nothing is inserted before all of it is there.

## Main definitions

* `Call.MayStore` — the previews that a call may store.

## Main results

* `persist_insertion` — storing a preview ends as an insertion does.
* `getOrGenerate_gains`, `ensure_gains`, `delete_erases` — the ways that an operation ends.
* `Call.perform_trees` — a call stores whole previews, or it removes.
-/

namespace ContentPreview

namespace Service

open Unreliable

section

variable (svc : Service) (source : Source) (b : Bitstream) (i : BitstreamId)
  (s : ServiceState Unreliable)

/-! ## Storing a preview -/

/-- Storing a preview ends as an insertion does, also if its conversion breaks off. -/
theorem persist_insertion {roots : List View} (hne : roots ≠ []) :
    Insertion s.store i roots
      ((persist i roots : ServiceM Unreliable InsertOutcome).run.run s).1
      ((persist i roots : ServiceM Unreliable InsertOutcome).run.run s).2.store := by
  have hconverted := View.mapM_toStored_endsIn (P := Undisturbed s.store)
    (fun t h => h.trans (nextId_run t).1) i roots (.refl s.store)
  unfold persist
  rcases hrun : (roots.mapM (View.toStored (Store.nextId : StoreM Unreliable Nat) i)).run.run
    s.store with ⟨e | stored, t⟩
  case error =>
    rw [run_bind_error (onStore_error hrun)]
    rw [hrun] at hconverted
    refine .failed (fun hnever => ?_) hconverted.state
    obtain ⟨stored, u, hok, -⟩ :=
      View.mapM_toStored_succeeds i roots (k := 0) (supplies_of_neverFails hnever _)
    rw [hrun] at hok
    cases hok
  case ok =>
    rw [run_bind_ok (onStore_ok hrun)]
    rw [hrun] at hconverted
    have hviews : stored.map StoredNode.toView = roots := hconverted.answer stored rfl
    have hstored : stored ≠ [] := by
      rintro rfl
      exact hne hviews.symm
    have hinserted := insertTree_run i hstored t
    have hbefore : Undisturbed s.store t := hconverted.state
    rw [hviews] at hinserted
    rcases hinsert : (Store.insertTree i stored : StoreM Unreliable InsertOutcome).run.run t with
      ⟨answer, u⟩
    rw [hinsert] at hinserted
    cases hinserted with
    | failed hfails hsame =>
        rw [onStore_error hinsert]
        refine .failed (fun hnever => hfails fun operation n => ?_) (hbefore.trans hsame)
        rw [hbefore.faults]
        exact hnever operation n
    | refused hfound hsame =>
        rw [onStore_ok hinsert]
        exact .refused (by rw [← hbefore.trees, hfound]) (hbefore.trans hsame)
    | stored hfree hgains =>
        rw [onStore_ok hinsert]
        exact .stored (by rw [← hbefore.trees, hfree]) (hbefore.gains hgains)

/-! ## Operations on one bitstream -/

theorem hasPreview_undisturbed :
    Undisturbed s.store
      ((onStore (Store.hasPreview i) : ServiceM Unreliable Bool).run.run s).2.store := by
  rw [onStore_run]
  exact (Unreliable.hasPreview_run i s.store).1

theorem storedPreview_undisturbed :
    Undisturbed s.store
      ((storedPreview i : ServiceM Unreliable (List View)).run.run s).2.store := by
  have hsame := Unreliable.findRoots_run i s.store
  unfold storedPreview
  rcases hrun : (Store.findRoots i : StoreM Unreliable (List StoredNode)).run.run s.store with
    ⟨e | roots, t⟩
  case error =>
    rw [run_bind_error (onStore_error hrun)]
    rwa [hrun] at hsame
  case ok =>
    rw [run_bind_ok (onStore_ok hrun)]
    rwa [hrun] at hsame

/-- Showing a preview disturbs nothing, or stores what it shows. -/
theorem getOrGenerate_gains :
    Undisturbed s.store ((svc.getOrGenerate source b).run.run s).2.store ∨
      ∃ roots, svc.Offers source b roots ∧ s.store.memory.trees.lookup b.id = none ∧
        ((svc.getOrGenerate source b).run.run s).1 = .ok roots ∧
        Gains s.store ((svc.getOrGenerate source b).run.run s).2.store b.id roots := by
  cases hgate : svc.canPreview b with
  | false =>
      unfold getOrGenerate
      rw [hgate]
      exact Or.inl (.refl _)
  | true =>
      have hchecked := hasPreview_undisturbed b.id s
      rcases hcheck : (onStore (Store.hasPreview b.id) : ServiceM Unreliable Bool).run.run s with
        ⟨e | _ | _, t⟩
      all_goals rw [hcheck] at hchecked
      case error =>
        unfold getOrGenerate
        rw [hgate, if_neg (by simp), run_bind_error hcheck]
        exact Or.inl hchecked
      case ok.true =>
        unfold getOrGenerate
        rw [hgate, if_neg (by simp), run_bind_ok hcheck, if_pos rfl]
        exact Or.inl (hchecked.trans (storedPreview_undisturbed b.id t))
      case ok.false =>
        by_cases hoffer : svc.config.generateOnPageLoad = true ∧ ∃ roots, svc.Offers source b roots
        · obtain ⟨hload, roots, hoffers⟩ := hoffer
          obtain ⟨opens, ledger, hrun⟩ := getOrGenerate_of_offers hcheck hoffers hload
          rw [hrun]
          rcases (persist_insertion b.id ⟨t.store, opens, ledger⟩
            hoffers.nonempty).undisturbed_or_gains with ⟨hsame, -⟩ | ⟨hanswer, hfree, hgains⟩
          · exact Or.inl (hchecked.trans hsame)
          · refine Or.inr ⟨roots, hoffers, ?_, ?_, hchecked.gains hgains⟩
            · rw [← hchecked.trees]
              exact hfree
            · rw [hanswer]
              rfl
        · refine Or.inl ?_
          rw [getOrGenerate_of_no_offer hcheck hgate fun hload roots hoffers =>
            hoffer ⟨hload, roots, hoffers⟩]
          exact hchecked

/-- Making sure of a preview disturbs nothing, or stores what is offered and reports it. -/
theorem ensure_gains :
    Undisturbed s.store ((svc.ensure source b).run.run s).2.store ∧
        (∀ nodes, ((svc.ensure source b).run.run s).1 ≠ .ok (.stored nodes)) ∨
      ∃ roots, svc.Offers source b roots ∧ s.store.memory.trees.lookup b.id = none ∧
        ((svc.ensure source b).run.run s).1 = .ok (.stored (View.totalNodes roots)) ∧
        Gains s.store ((svc.ensure source b).run.run s).2.store b.id roots := by
  cases hgate : svc.canPreview b with
  | false =>
      unfold ensure
      rw [hgate]
      exact Or.inl ⟨.refl _, nofun⟩
  | true =>
      have hchecked := hasPreview_undisturbed b.id s
      rcases hcheck : (onStore (Store.hasPreview b.id) : ServiceM Unreliable Bool).run.run s with
        ⟨e | _ | _, t⟩
      all_goals rw [hcheck] at hchecked
      case error =>
        unfold ensure
        rw [hgate, if_neg (by simp), run_bind_error hcheck]
        exact Or.inl ⟨hchecked, nofun⟩
      case ok.true =>
        unfold ensure
        rw [hgate, if_neg (by simp), run_bind_ok hcheck, if_pos rfl]
        exact Or.inl ⟨hchecked, nofun⟩
      case ok.false =>
        by_cases hoffer : ∃ roots, svc.Offers source b roots
        · obtain ⟨roots, hoffers⟩ := hoffer
          obtain ⟨opens, ledger, hrun⟩ := ensure_of_offers hcheck hoffers
          rw [hrun]
          rcases (persist_insertion b.id ⟨t.store, opens, ledger⟩
            hoffers.nonempty).undisturbed_or_gains with ⟨hsame, hnot⟩ | ⟨hanswer, hfree, hgains⟩
          · exact Or.inl ⟨hchecked.trans hsame, fun nodes hanswer =>
              hnot (eq_inserted_of_outcomeAfter hanswer)⟩
          · refine Or.inr ⟨roots, hoffers, ?_, ?_, hchecked.gains hgains⟩
            · rw [← hchecked.trees]
              exact hfree
            · rw [hanswer]
              rfl
        · have hnone : ∀ roots, ¬ svc.Offers source b roots := fun roots hoffers =>
            hoffer ⟨roots, hoffers⟩
          obtain ⟨hstore, hnot⟩ := ensure_of_no_offer hcheck hgate hnone
          rw [hstore]
          exact Or.inl ⟨hchecked, hnot⟩

/-! ## The other operations -/

theorem sweepFrom_grows (bs : List Bitstream) (report : SweepReport) (sent : List SweepProgress) :
    Grows (fun i roots => ∃ b ∈ bs, b.id = i ∧ svc.Offers source b roots) s.store
      ((svc.sweepFrom source bs report sent).run s).2.store := by
  induction bs generalizing s report sent with
  | nil => exact Undisturbed.grows (.refl _)
  | cons b rest ih =>
      rw [sweepFrom_cons]
      have hfirst : Grows (fun i roots => ∃ c ∈ b :: rest, c.id = i ∧ svc.Offers source c roots)
          s.store ((svc.ensure source b).run.run s).2.store := by
        rcases ensure_gains svc source b s with ⟨hsame, -⟩ | ⟨roots, hoffers, -, -, hgains⟩
        · exact hsame.grows
        · exact hgains.grows ⟨b, List.mem_cons_self, rfl, hoffers⟩
      refine hfirst.trans ((ih _ _ _).mono ?_)
      rintro i roots ⟨c, hc, hrest⟩
      exact ⟨c, List.mem_cons_of_mem _ hc, hrest⟩

/-- A deletion disturbs nothing, or it has erased what it says. -/
theorem delete_erases :
    (∃ e, ((svc.delete i).run.run s).1 = .error e) ∧
        Undisturbed s.store ((svc.delete i).run.run s).2.store ∨
      (∃ nodes, ((svc.delete i).run.run s).1 = .ok nodes) ∧
        ((svc.delete i).run.run s).2.store.memory.trees =
          s.store.memory.trees.filter (·.1 != i) ∧
        ((svc.delete i).run.run s).2.store.faults = s.store.faults := by
  unfold delete
  cases svc.gate.isAdmin with
  | false => exact Or.inl ⟨⟨_, rfl⟩, .refl _⟩
  | true =>
      rw [if_neg (by simp)]
      rw [onStore_run]
      rcases Unreliable.deleteTree_run i s.store with
        ⟨⟨e, hanswer⟩, hsame⟩ | ⟨⟨nodes, hanswer⟩, herased⟩
      · rw [hanswer]
        exact Or.inl ⟨⟨_, rfl⟩, hsame⟩
      · rw [hanswer]
        exact Or.inr ⟨⟨nodes, rfl⟩, herased⟩

end

end Service

/-! ## Runs -/

open Unreliable

/-- The previews that a call may store: those of the bitstreams that it is about. -/
def Call.MayStore (c : Call) (i : BitstreamId) (roots : List View) : Prop :=
  ∃ source b, c.request.Asks source b ∧ b.id = i ∧ c.service.Offers source b roots

/-- A call stores whole previews, or it is answered as a removal and has removed. -/
theorem Call.perform_trees (c : Call) (s : ServiceState Unreliable) :
    Grows c.MayStore s.store (c.perform.run s).2.store ∨
      ∃ i, c.Removes (c.perform.run s).1 i ∧
        (c.perform.run s).2.store.memory.trees = s.store.memory.trees.filter (·.1 != i) ∧
        (c.perform.run s).2.store.faults = s.store.faults := by
  obtain ⟨svc, request⟩ := c
  unfold perform
  cases request with
  | page source b =>
      dsimp only
      rw [run_map]
      refine Or.inl ?_
      rcases Service.getOrGenerate_gains svc source b s with
        hsame | ⟨roots, hoffers, -, -, hgains⟩
      · exact hsame.grows
      · exact hgains.grows ⟨source, b, .page source b, rfl, hoffers⟩
  | ensure source b =>
      dsimp only
      rw [run_map]
      refine Or.inl ?_
      rcases Service.ensure_gains svc source b s with ⟨hsame, -⟩ | ⟨roots, hoffers, -, -, hgains⟩
      · exact hsame.grows
      · exact hgains.grows ⟨source, b, .ensure source b, rfl, hoffers⟩
  | stored i =>
      dsimp only
      rw [run_map]
      exact Or.inl (Service.storedPreview_undisturbed i s).grows
  | generate b stream =>
      dsimp only
      rw [run_map, Service.onScratch_run]
      exact Or.inl (Undisturbed.grows (.refl _))
  | delete i =>
      dsimp only
      rw [run_map]
      rcases Service.delete_erases svc i s with ⟨-, hsame⟩ | ⟨⟨nodes, hanswer⟩, herased⟩
      · exact Or.inl hsame.grows
      · exact Or.inr ⟨i, ⟨rfl, nodes, congrArg Answer.removed hanswer⟩, herased⟩
  | sweep source bs =>
      dsimp only
      rw [run_map]
      refine Or.inl ((Service.sweepFrom_grows svc source s bs {} []).mono ?_)
      rintro i roots ⟨b, hb, hid, hoffers⟩
      exact ⟨source, b, .sweep source hb, hid, hoffers⟩

end ContentPreview
