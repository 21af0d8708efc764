import ContentPreview.Proofs.Service.Failing

/-!
# The first of two writers

A service asks the store whether there is a preview, then makes one, then stores it.  By
that time another writer may have stored one.  The store is then asked to insert a second
tree, keeps the first, and answers with it; so what is shown is what is stored, and not
what was made.

The store that overlooks its previews is the worst case: every check comes too early.  It
still holds one tree for a bitstream, that of the first writer, until it is deleted.

## Main definitions

* `Unreliable.IsLate` — the store overlooks every preview, and does not fail.
* `StaysShown` — everybody who would make a preview is shown the same one until it is
  deleted.

## Main results

* `getOrGenerate_late`, `ensure_late` — an operation whose check came too early.
* `stale_check_keeps_first` — what is shown, answered and stored.
-/

namespace ContentPreview

namespace Unreliable

/-- The store overlooks every preview when asked for one, and does not fail. -/
structure IsLate (s : Unreliable) : Prop where
  neverFails : s.NeverFails
  overlooks : s.faults.overlooks = true

variable {s t : Unreliable} {i : BitstreamId} {roots : List View}

theorem IsLate.of_faults_eq (h : s.IsLate) (hfaults : t.faults = s.faults) : t.IsLate where
  neverFails := fun operation n => by
    rw [hfaults]
    exact h.neverFails operation n
  overlooks := by
    rw [hfaults]
    exact h.overlooks

section Insertion

variable {ε : Type} {answer : Except ε InsertOutcome}

/-- An insertion behind another one is answered with what is there. -/
theorem Insertion.of_found {existing : List StoredNode} (h : Insertion s i roots answer t)
    (hnever : s.NeverFails) (hfound : s.memory.trees.lookup i = some existing) :
    answer = .ok (.alreadyPresent existing) ∧ Undisturbed s t := by
  cases h with
  | failed hfails => exact absurd hnever hfails
  | refused hfound' hsame =>
      rw [hfound, Option.some.injEq] at hfound'
      subst hfound'
      exact ⟨rfl, hsame⟩
  | stored hfree =>
      rw [hfound] at hfree
      cases hfree

/-- The first insertion is kept. -/
theorem Insertion.of_free (h : Insertion s i roots answer t) (hnever : s.NeverFails)
    (hfree : s.memory.trees.lookup i = none) : answer = .ok .inserted ∧ Gains s t i roots := by
  cases h with
  | failed hfails => exact absurd hnever hfails
  | refused hfound =>
      rw [hfree] at hfound
      cases hfound
  | stored _ hgains => exact ⟨rfl, hgains⟩

end Insertion

end Unreliable

/-! ## One operation -/

namespace Service

open Unreliable

variable {svc : Service} {source : Source} {b : Bitstream} {roots : List View}
  {s : ServiceState Unreliable}

/-- The check of a late store. -/
theorem hasPreview_late (hlate : s.store.IsLate) (i : BitstreamId) :
    ∃ t, (onStore (Store.hasPreview i) : ServiceM Unreliable Bool).run.run s = (.ok false, t) ∧
      Undisturbed s.store t.store := by
  obtain ⟨hsame, hanswer⟩ := Unreliable.hasPreview_run i s.store
  have hrun : (Store.hasPreview i : StoreM Unreliable Bool).run.run s.store = (.ok false, _) :=
    Prod.ext (hanswer hlate.neverFails hlate.overlooks) rfl
  exact ⟨_, onStore_ok hrun, hsame⟩

/-- What is left to do behind a check that came too early is to insert the preview. -/
theorem persist_late (hlate : s.store.IsLate) {t : ServiceState Unreliable}
    (hcheck : Undisturbed s.store t.store) (hne : roots ≠ []) (i : BitstreamId) (opens : Nat)
    (ledger : Ledger) :
    let kept := (persist i roots : ServiceM Unreliable InsertOutcome).run.run
      ⟨t.store, opens, ledger⟩
    (∀ existing, s.store.memory.trees.lookup i = some existing →
      kept.1 = .ok (.alreadyPresent existing) ∧ Undisturbed s.store kept.2.store) ∧
      (s.store.memory.trees.lookup i = none →
        kept.1 = .ok .inserted ∧ Gains s.store kept.2.store i roots) := by
  intro kept
  have hnever := (hlate.of_faults_eq hcheck.faults).neverFails
  have hinsertion := persist_insertion i ⟨t.store, opens, ledger⟩ hne
  rw [← hcheck.trees]
  constructor
  · intro existing hfound
    obtain ⟨hanswer, hsame⟩ := hinsertion.of_found hnever hfound
    exact ⟨hanswer, hcheck.trans hsame⟩
  · intro hfree
    obtain ⟨hanswer, hgains⟩ := hinsertion.of_free hnever hfree
    exact ⟨hanswer, hcheck.gains hgains⟩

theorem getOrGenerate_late (hlate : s.store.IsLate) (hoffers : svc.Offers source b roots)
    (hload : svc.config.generateOnPageLoad = true) :
    let shown := (svc.getOrGenerate source b).run.run s
    (∀ existing, s.store.memory.trees.lookup b.id = some existing →
      shown.1 = .ok (existing.map StoredNode.toView) ∧ Undisturbed s.store shown.2.store) ∧
      (s.store.memory.trees.lookup b.id = none →
        shown.1 = .ok roots ∧ Gains s.store shown.2.store b.id roots) := by
  intro shown
  obtain ⟨t, hcheck, hsame⟩ := hasPreview_late hlate b.id
  obtain ⟨opens, ledger, hrun⟩ := getOrGenerate_of_offers hcheck hoffers hload
  obtain ⟨hfound, hfree⟩ := persist_late hlate hsame hoffers.nonempty b.id opens ledger
  have hshown : shown = _ := hrun
  rw [hshown]
  constructor
  · intro existing hexisting
    obtain ⟨hanswer, hafter⟩ := hfound existing hexisting
    rw [hanswer]
    exact ⟨rfl, hafter⟩
  · intro hnone
    obtain ⟨hanswer, hafter⟩ := hfree hnone
    rw [hanswer]
    exact ⟨rfl, hafter⟩

theorem ensure_late (hlate : s.store.IsLate) (hoffers : svc.Offers source b roots) :
    let ensured := (svc.ensure source b).run.run s
    (∀ existing, s.store.memory.trees.lookup b.id = some existing →
      ensured.1 = .ok .existing ∧ Undisturbed s.store ensured.2.store) ∧
      (s.store.memory.trees.lookup b.id = none →
        ensured.1 = .ok (.stored (View.totalNodes roots)) ∧
          Gains s.store ensured.2.store b.id roots) := by
  intro ensured
  obtain ⟨t, hcheck, hsame⟩ := hasPreview_late hlate b.id
  obtain ⟨opens, ledger, hrun⟩ := ensure_of_offers hcheck hoffers
  obtain ⟨hfound, hfree⟩ := persist_late hlate hsame hoffers.nonempty b.id opens ledger
  have hensured : ensured = _ := hrun
  rw [hensured]
  constructor
  · intro existing hexisting
    obtain ⟨hanswer, hafter⟩ := hfound existing hexisting
    rw [hanswer]
    exact ⟨rfl, hafter⟩
  · intro hnone
    obtain ⟨hanswer, hafter⟩ := hfree hnone
    rw [hanswer]
    exact ⟨rfl, hafter⟩

end Service

/-! ## Runs -/

/-- Whether something that was asked was answered as a successful deletion of an
identifier. -/
def Interaction.Removes (a : Interaction) (response : Response) (i : BitstreamId) : Prop :=
  ∃ c answer, a = .call c ∧ response = .answer answer ∧ c.Removes answer i

section Run

variable {s : ServiceState Unreliable} {i : BitstreamId} {stored : List StoredNode}

/-- A stored tree outlasts everything that is not its deletion, failures included. -/
theorem lookup_perform {a : Interaction}
    (hfound : s.store.memory.trees.lookup i = some stored)
    (hkept : ¬ a.Removes (a.perform.run s).1 i) :
    (a.perform.run s).2.store.memory.trees.lookup i = some stored ∧
      (a.perform.run s).2.store.faults = s.store.faults := by
  cases a with
  | address svc item b base => exact ⟨hfound, rfl⟩
  | call c =>
      change (c.perform.run s).2.store.memory.trees.lookup i = some stored ∧
        (c.perform.run s).2.store.faults = s.store.faults
      rcases c.perform_trees s with hgrows | ⟨j, hremoves, htrees, hfaults⟩
      · exact ⟨hgrows.lookup hfound, hgrows.faults⟩
      · have hne : i ≠ j := by
          rintro rfl
          exact hkept ⟨c, _, rfl, rfl, hremoves⟩
        refine ⟨?_, hfaults⟩
        have herased := Memory.lookup_erase (m := s.store.memory) (b := j) i
        rw [if_neg hne, hfound] at herased
        rw [htrees]
        exact herased

theorem lookup_performEach {actions : List Interaction}
    (hfound : s.store.memory.trees.lookup i = some stored)
    (hkept : ∀ e ∈ ((performEach actions).run s).1, ¬ e.1.Removes e.2 i) :
    ((performEach actions).run s).2.store.memory.trees.lookup i = some stored ∧
      ((performEach actions).run s).2.store.faults = s.store.faults := by
  refine historyOf_keeps_while
    (P := fun t : ServiceState Unreliable => t.store.memory.trees.lookup i = some stored ∧
      t.store.faults = s.store.faults)
    (Q := fun (a : Interaction) (response : Response) => ¬ a.Removes response i)
    ?_ hkept ⟨hfound, rfl⟩
  intro a t hremoves ⟨hfound, hfaults⟩
  obtain ⟨hlookup, hsame⟩ := lookup_perform hfound hremoves
  exact ⟨hlookup, hsame.trans hfaults⟩

end Run

/-- From a state on, and until a deletion, everybody who asks for the preview of an
identifier and would make one is shown the same. -/
def StaysShown (s : ServiceState Unreliable) (i : BitstreamId) (roots : List View) : Prop :=
  ∀ later : List Interaction,
    (∀ e ∈ ((performEach later).run s).1, ¬ e.1.Removes e.2 i) →
    ∀ (svc : Service) (source : Source) (b : Bitstream) (made : List View), b.id = i →
      svc.Offers source b made → svc.config.generateOnPageLoad = true →
      ((svc.getOrGenerate source b).run.run ((performEach later).run s).2).1 = .ok roots

theorem staysShown_of_gains {s t : ServiceState Unreliable} {i : BitstreamId} {roots : List View}
    (hlate : s.store.IsLate) (hfree : s.store.memory.trees.lookup i = none)
    (h : Unreliable.Gains s.store t.store i roots) : StaysShown t i roots := by
  obtain ⟨stored, hroots, htrees⟩ := h.trees
  have hfound : t.store.memory.trees.lookup i = some stored := by
    rw [htrees, List.lookup_append, hfree, Option.none_or, List.lookup_cons_self]
  rintro later hkept svc source b made rfl hoffers hload
  obtain ⟨hlookup, hfaults⟩ := lookup_performEach hfound hkept
  have hlate' := hlate.of_faults_eq (hfaults.trans h.faults)
  rw [((Service.getOrGenerate_late hlate' hoffers hload).1 stored hlookup).1, hroots]

/-- **The first writer's tree counts.**  A bitstream offers a preview, and the store
overlooks what it holds.  If a tree is stored for the bitstream, showing its preview shows
this tree and making sure of its preview finds it, whatever was made in the meantime, and
everything that is stored stays as it is.  If none is stored, each of the two stores what
was made as the one new tree, and answers with it or with its number of nodes; from then on
everybody who would make a preview is shown this one, until it is deleted. -/
theorem stale_check_keeps_first {svc : Service} {source : Source} {b : Bitstream}
    {roots : List View} (hoffers : svc.Offers source b roots) {s : ServiceState Unreliable}
    (hlate : s.store.IsLate) :
    let shown := (svc.getOrGenerate source b).run.run s
    let ensured := (svc.ensure source b).run.run s
    let trees := s.store.memory.trees
    (∀ existing, trees.lookup b.id = some existing →
      (svc.config.generateOnPageLoad = true →
        shown.1 = .ok (existing.map StoredNode.toView) ∧ shown.2.store.memory.trees = trees) ∧
        ensured.1 = .ok .existing ∧ ensured.2.store.memory.trees = trees) ∧
      (trees.lookup b.id = none →
        (svc.config.generateOnPageLoad = true →
          shown.1 = .ok roots ∧
            (∃ stored, stored.map StoredNode.toView = roots ∧
              shown.2.store.memory.trees = trees ++ [(b.id, stored)]) ∧
            StaysShown shown.2 b.id roots) ∧
          ensured.1 = .ok (.stored (View.totalNodes roots)) ∧
          (∃ stored, stored.map StoredNode.toView = roots ∧
            ensured.2.store.memory.trees = trees ++ [(b.id, stored)]) ∧
          StaysShown ensured.2 b.id roots) := by
  intro shown ensured trees
  obtain ⟨hensureFound, hensureFree⟩ := Service.ensure_late hlate hoffers
  constructor
  · intro existing hexisting
    constructor
    · intro hload
      obtain ⟨hanswer, hsame⟩ :=
        (Service.getOrGenerate_late hlate hoffers hload).1 existing hexisting
      exact ⟨hanswer, hsame.trees⟩
    · obtain ⟨hanswer, hsame⟩ := hensureFound existing hexisting
      exact ⟨hanswer, hsame.trees⟩
  · intro hnone
    constructor
    · intro hload
      obtain ⟨hanswer, hgains⟩ := (Service.getOrGenerate_late hlate hoffers hload).2 hnone
      exact ⟨hanswer, hgains.trees, staysShown_of_gains hlate hnone hgains⟩
    · obtain ⟨hanswer, hgains⟩ := hensureFree hnone
      exact ⟨hanswer, hgains.trees, staysShown_of_gains hlate hnone hgains⟩

/-- A text whose preview meets a tree of another shape, and two texts for one bitstream of
which the first is stored. -/
theorem stale_check_keeps_first_other_shape :
    let svc : Service := ⟨⟨⟨1000, 20⟩, true, true⟩, .unrestricted, {}⟩
    let b : Bitstream := ⟨"b", some "notes.txt", "text/plain", 1⟩
    let first := Source.ofStreams [("b", .ofBytes [0x68, 0x69])]
    let second := Source.ofStreams [("b", .ofBytes [0x68, 0x6f])]
    let other : View := ⟨"dir", "", 0, true, [("f", .file "f" 10)]⟩
    let free : ServiceState Unreliable := { store := { faults := { overlooks := true } } }
    let taken : ServiceState Unreliable :=
      { store := { free.store with memory := ⟨[("b", View.numberedRoots "b" 1 [other])], 3⟩ } }
    ((svc.getOrGenerate first b).run.run taken).1 = .ok [other] ∧
      ((svc.ensure first b).run.run taken).1 = .ok .existing ∧
      ((svc.ensure first b).run.run free).1 = .ok (.stored 1) ∧
      ((svc.getOrGenerate second b).run.run ((svc.ensure first b).run.run free).2).1 =
        .ok [View.text "notes.txt" "hi"] := by
  intro svc b first second other free taken
  have hkind : b.kind = .plainText := by decide
  have hname : hasArchiveExtension b.nameOrEmpty = false := by decide
  have hload : svc.config.generateOnPageLoad = true := rfl
  have hhi : truncateText 20 (Text.Utf8.decodeLossy [0x68, 0x69]) = "hi" := by decide
  have hfirst : svc.Offers first b [View.text "notes.txt" "hi"] := by
    rw [← hhi]
    exact Service.offers_ofBytes rfl hkind hname rfl (by decide)
  have hsecond : svc.Offers second b
      [View.text "notes.txt" (truncateText 20 (Text.Utf8.decodeLossy [0x68, 0x6f]))] :=
    Service.offers_ofBytes rfl hkind hname rfl (by decide)
  have hfree : free.store.IsLate := ⟨fun _ _ => rfl, rfl⟩
  have htaken : taken.store.IsLate := ⟨fun _ _ => rfl, rfl⟩
  have hlookup : taken.store.memory.trees.lookup b.id =
      some (View.numberedRoots "b" 1 [other]) := rfl
  have hnone : free.store.memory.trees.lookup b.id = none := rfl
  have hview : (View.numberedRoots "b" 1 [other]).map StoredNode.toView = [other] :=
    View.map_toView_numberedRoots "b" 1 [other]
  have hnodes : View.totalNodes [View.text "notes.txt" "hi"] = 1 := rfl
  clear_value taken free other second first b svc
  obtain ⟨hmeets, -⟩ := stale_check_keeps_first hfirst htaken
  obtain ⟨hshown, hexisting, -⟩ := hmeets _ hlookup
  obtain ⟨-, hstores⟩ := stale_check_keeps_first hfirst hfree
  obtain ⟨-, hstored, -, hstays⟩ := hstores hnone
  refine ⟨?_, hexisting, ?_, ?_⟩
  · rw [← hview]
    exact (hshown hload).1
  · rw [← hnodes]
    exact hstored
  · exact hstays [] (fun e he => nomatch he) svc second b _ rfl hsecond hload

end ContentPreview
