import ContentPreview.Proofs.Service.Failing
import ContentPreview.Proofs.Service.Storing

/-!
# Unsuccessful attempts leave no trace

What shows nothing, stores nothing or is refused leaves the store in memory exactly as it
was, the next identity included.  Whatever is asked later cannot tell that the attempt was
made, so it can be left out of the run.

A store that fails is another matter, since identities may be used up before a failure.
What is stored is still as it was after every error, and what does get stored is a whole
preview.

Both halves rest on the same two facts about a store, that showing a preview and making
sure of one either disturb nothing or store what the bitstream offers.  An answer that
cannot be that of the second way must be that of the first.

## Main definitions

* `Interaction.Fruitless` — the responses that show that nothing was stored or deleted.
* `Response.IsRefusal` — an error, or the answer that a preview is there already.
* `Erased` — a history without some of its fruitless entries.

## Main results

* `performEach_erased` — fruitless attempts can be left out of a run.
* `unsuccessful_leaves_no_trace` — what becomes of the store after an attempt that fails.
-/

namespace ContentPreview

/-- A response that shows that nothing was stored or deleted. -/
inductive Interaction.Fruitless : Interaction → Response → Prop where
  | nothing (svc : Service) (source : Source) (b : Bitstream) :
      Fruitless (.call ⟨svc, .page source b⟩) (.answer (.preview (.ok [])))
  | unshown (svc : Service) (source : Source) (b : Bitstream) (e : PreviewError) :
      Fruitless (.call ⟨svc, .page source b⟩) (.answer (.preview (.error e)))
  | html (svc : Service) (source : Source) {b : Bitstream} (h : b.kind = .html)
      (response : Response) : Fruitless (.call ⟨svc, .page source b⟩) response
  | unstored (svc : Service) (source : Source) (b : Bitstream)
      {answer : Except PreviewError Outcome} (h : ∀ nodes, answer ≠ .ok (.stored nodes)) :
      Fruitless (.call ⟨svc, .ensure source b⟩) (.answer (.outcome answer))
  | stored (svc : Service) (i : BitstreamId) (response : Response) :
      Fruitless (.call ⟨svc, .stored i⟩) response
  | generate (svc : Service) (b : Bitstream) (s : Stream) (response : Response) :
      Fruitless (.call ⟨svc, .generate b s⟩) response
  | address (svc : Service) (item : Option ItemRef) (b : Bitstream) (base : String)
      (response : Response) : Fruitless (.address svc item b base) response
  | refused (svc : Service) (i : BitstreamId) (e : PreviewError) :
      Fruitless (.call ⟨svc, .delete i⟩) (.answer (.removed (.error e)))

/-- An error, or the answer that a preview is there already. -/
inductive Response.IsRefusal : Response → Prop where
  | preview (e : PreviewError) : IsRefusal (.answer (.preview (.error e)))
  | outcome (e : PreviewError) : IsRefusal (.answer (.outcome (.error e)))
  | removed (e : PreviewError) : IsRefusal (.answer (.removed (.error e)))
  | existing : IsRefusal (.answer (.outcome (.ok .existing)))

/-- The second history is the first without some of its fruitless entries. -/
inductive Erased : List (Interaction × Response) → List (Interaction × Response) → Prop where
  | nil : Erased [] []
  | keep (entry : Interaction × Response) {long short : List (Interaction × Response)}
      (h : Erased long short) : Erased (entry :: long) (entry :: short)
  | drop {entry : Interaction × Response} (hentry : entry.1.Fruitless entry.2)
      {long short : List (Interaction × Response)} (h : Erased long short) :
      Erased (entry :: long) short

/-! ## One attempt -/

namespace Interaction.Fruitless

variable {svc : Service} {source : Source} {b : Bitstream}

/-- A fruitless page does not show what the bitstream offers. -/
theorem ne_offer {roots : List View} {answer : Except PreviewError (List View)}
    (h : Fruitless (.call ⟨svc, .page source b⟩) (.answer (.preview answer)))
    (hoffers : svc.Offers source b roots) : answer ≠ .ok roots := by
  cases h with
  | nothing =>
      intro hanswer
      exact hoffers.nonempty (Except.ok.inj hanswer).symm
  | unshown => exact nofun
  | html _ _ hkind => exact absurd hkind hoffers.kind_ne.1

theorem ne_stored {answer : Except PreviewError Outcome}
    (h : Fruitless (.call ⟨svc, .ensure source b⟩) (.answer (.outcome answer))) (nodes : Nat) :
    answer ≠ .ok (.stored nodes) := by
  cases h with
  | unstored _ _ _ hnot => exact hnot nodes

theorem ne_removed {i : BitstreamId} {answer : Except PreviewError Nat}
    (h : Fruitless (.call ⟨svc, .delete i⟩) (.answer (.removed answer))) (nodes : Nat) :
    answer ≠ .ok nodes := by
  cases h with
  | refused => exact nofun

/-- Over any store a refusal is fruitless. -/
theorem of_isRefusal {σ : Type} [Store σ] (a : Interaction) (s : ServiceState σ)
    (h : (a.perform.run s).1.IsRefusal) : a.Fruitless (a.perform.run s).1 := by
  cases a with
  | address svc item b base => exact .address svc item b base _
  | call c =>
      obtain ⟨svc, request⟩ := c
      unfold Interaction.perform Call.perform at h ⊢
      dsimp only at h ⊢
      cases request with
      | page source b =>
          dsimp only at h ⊢
          rw [run_map, run_map] at h ⊢
          generalize ((svc.getOrGenerate source b).run.run s).1 = answer at h ⊢
          cases h
          exact .unshown svc source b _
      | ensure source b =>
          dsimp only at h ⊢
          rw [run_map, run_map] at h ⊢
          generalize ((svc.ensure source b).run.run s).1 = answer at h ⊢
          cases h <;> exact .unstored svc source b nofun
      | stored i => exact .stored svc i _
      | generate b stream => exact .generate svc b stream _
      | delete i =>
          dsimp only at h ⊢
          rw [run_map, run_map] at h ⊢
          generalize ((svc.delete i).run.run s).1 = answer at h ⊢
          cases h
          exact .refused svc i _
      | sweep source bs => exact nomatch h

/-- What a store goes through in a fruitless attempt.  It is enough that an operation that
could store or delete something either goes through the same or answers that it did. -/
theorem related {σ : Type} [Store σ] {R : σ → σ → Prop} (hrefl : ∀ store, R store store)
    (hpage : ∀ (svc : Service) (source : Source) (b : Bitstream) (s : ServiceState σ),
      R s.store ((svc.getOrGenerate source b).run.run s).2.store ∨
        ∃ roots, svc.Offers source b roots ∧
          ((svc.getOrGenerate source b).run.run s).1 = .ok roots)
    (hensure : ∀ (svc : Service) (source : Source) (b : Bitstream) (s : ServiceState σ),
      R s.store ((svc.ensure source b).run.run s).2.store ∨
        ∃ nodes, ((svc.ensure source b).run.run s).1 = .ok (.stored nodes))
    (hstored : ∀ (i : BitstreamId) (s : ServiceState σ),
      R s.store ((Service.storedPreview i).run.run s).2.store)
    (hdelete : ∀ (svc : Service) (i : BitstreamId) (s : ServiceState σ),
      R s.store ((svc.delete i).run.run s).2.store ∨
        ∃ nodes, ((svc.delete i).run.run s).1 = .ok nodes)
    {a : Interaction} {s : ServiceState σ} (h : a.Fruitless (a.perform.run s).1) :
    R s.store (a.perform.run s).2.store := by
  cases a with
  | address svc item b base => exact hrefl _
  | call c =>
      obtain ⟨svc, request⟩ := c
      unfold Interaction.perform Call.perform at h ⊢
      dsimp only at h ⊢
      cases request with
      | page source b =>
          dsimp only at h ⊢
          rw [run_map, run_map] at h ⊢
          rcases hpage svc source b s with hsame | ⟨roots, hoffers, hanswer⟩
          · exact hsame
          · exact absurd hanswer (h.ne_offer hoffers)
      | ensure source b =>
          dsimp only at h ⊢
          rw [run_map, run_map] at h ⊢
          rcases hensure svc source b s with hsame | ⟨nodes, hanswer⟩
          · exact hsame
          · exact absurd hanswer (h.ne_stored nodes)
      | stored i =>
          dsimp only
          rw [run_map, run_map]
          exact hstored i s
      | generate b stream =>
          dsimp only
          rw [run_map, run_map, Service.onScratch_run]
          exact hrefl _
      | delete i =>
          dsimp only at h ⊢
          rw [run_map, run_map] at h ⊢
          rcases hdelete svc i s with hsame | ⟨nodes, hanswer⟩
          · exact hsame
          · exact absurd hanswer (h.ne_removed nodes)
      | sweep source bs => nomatch h

/-- Over the store in memory a fruitless attempt changes nothing. -/
theorem store_eq {a : Interaction} {s : ServiceState Memory}
    (h : a.Fruitless (a.perform.run s).1) : (a.perform.run s).2.store = s.store := by
  refine related (R := fun before after => after = before) (fun _ => rfl) ?page ?ensure ?stored
    ?delete h
  case page =>
    intro svc source b s
    rcases Service.getOrGenerate_stores svc source b s with
      hsame | ⟨roots, hoffers, -, hanswer, -⟩
    · exact Or.inl hsame
    · exact Or.inr ⟨roots, hoffers, hanswer⟩
  case ensure =>
    intro svc source b s
    rcases Service.ensure_stores svc source b s with ⟨hsame, -⟩ | ⟨roots, -, -, hanswer, -⟩
    · exact Or.inl hsame
    · exact Or.inr ⟨_, hanswer⟩
  case stored =>
    intro i s
    rw [Service.storedPreview_run]
  case delete =>
    intro svc i s
    cases hadmin : svc.gate.isAdmin with
    | false =>
        rw [Service.delete_of_not_admin svc i s hadmin]
        exact Or.inl rfl
    | true =>
        rw [Service.delete_of_admin svc i s hadmin]
        exact Or.inr ⟨_, rfl⟩

/-- Over a store that fails it disturbs nothing that is stored. -/
theorem undisturbed {a : Interaction} {s : ServiceState Unreliable}
    (h : a.Fruitless (a.perform.run s).1) :
    Unreliable.Undisturbed s.store (a.perform.run s).2.store := by
  refine related Unreliable.Undisturbed.refl ?page ?ensure Service.storedPreview_undisturbed
    ?delete h
  case page =>
    intro svc source b s
    rcases Service.getOrGenerate_gains svc source b s with
      hsame | ⟨roots, hoffers, -, hanswer, -⟩
    · exact Or.inl hsame
    · exact Or.inr ⟨roots, hoffers, hanswer⟩
  case ensure =>
    intro svc source b s
    rcases Service.ensure_gains svc source b s with ⟨hsame, -⟩ | ⟨roots, -, -, hanswer, -⟩
    · exact Or.inl hsame
    · exact Or.inr ⟨_, hanswer⟩
  case delete =>
    intro svc i s
    rcases Service.delete_erases svc i s with ⟨-, hsame⟩ | ⟨hanswer, -⟩
    · exact Or.inl hsame
    · exact Or.inr hanswer

end Interaction.Fruitless

/-! ## Runs -/

/-- Fruitless attempts can be left out of a run: the others are answered as before, and the
store is the same at the end. -/
theorem performEach_erased {actions : List Interaction} {s t : ServiceState Memory}
    {short : List (Interaction × Response)} (hstore : t.store = s.store)
    (h : Erased ((performEach actions).run s).1 short) :
    ((performEach (short.map Prod.fst)).run t).1 = short ∧
      ((performEach (short.map Prod.fst)).run t).2.store =
        ((performEach actions).run s).2.store := by
  induction actions generalizing s t short with
  | nil =>
      cases h
      exact ⟨rfl, hstore⟩
  | cons a rest ih =>
      rw [performEach_cons] at h ⊢
      cases h with
      | keep _ hrest =>
          obtain ⟨hresponse, hafter⟩ := dependsOnStore_perform a s t hstore
          obtain ⟨hhistory, hend⟩ := ih hafter hrest
          rw [List.map_cons, performEach_cons]
          exact ⟨by rw [hresponse, hhistory], hend⟩
      | drop hentry hrest => exact ih (hstore.trans hentry.store_eq.symm) hrest

/-- What is stored after a run over a store that fails was stored before, or it is a whole
preview that a call of the run may store. -/
theorem mem_trees_performEach {actions : List Interaction} {s : ServiceState Unreliable}
    {entry : BitstreamId × List StoredNode}
    (h : entry ∈ ((performEach actions).run s).2.store.memory.trees) :
    entry ∈ s.store.memory.trees ∨
      ∃ c, .call c ∈ actions ∧ c.MayStore entry.1 (entry.2.map StoredNode.toView) := by
  induction actions generalizing s with
  | nil => exact Or.inl h
  | cons a rest ih =>
      rw [performEach_cons] at h
      rcases ih h with hstep | ⟨c, hc, hstores⟩
      · cases a with
        | address svc item b base => exact Or.inl hstep
        | call c =>
            change entry ∈ (c.perform.run s).2.store.memory.trees at hstep
            rcases c.perform_trees s with hgrows | ⟨i, -, htrees, -⟩
            · obtain ⟨added, htrees, hadded⟩ := hgrows.trees
              rw [htrees, List.mem_append] at hstep
              exact hstep.imp_right fun hnew => ⟨c, List.mem_cons_self, hadded entry hnew⟩
            · rw [htrees] at hstep
              exact Or.inl (List.mem_filter.1 hstep).1
      · exact Or.inr ⟨c, List.mem_cons_of_mem _ hc, hstores⟩

/-- **Unsuccessful attempts leave no trace.**  Over the store in memory, from any state, an
attempt that shows nothing, shows a page, stores nothing or is refused leaves the trees and
the next identity as they were; so any number of these attempts can be left out of a run,
and everything else is answered as before.  Over a store of which any operation may fail at
any call, and which may overlook what is there, an error and the answer that a preview is
there already leave all that is stored as it was; and whatever such a run has stored is the
whole preview of a bitstream that one of its calls is about. -/
theorem unsuccessful_leaves_no_trace :
    (∀ (a : Interaction) (s : ServiceState Memory), a.Fruitless (a.perform.run s).1 →
      (a.perform.run s).2.store = s.store) ∧
      (∀ (actions : List Interaction) (s : ServiceState Memory)
        (short : List (Interaction × Response)), Erased ((performEach actions).run s).1 short →
        ((performEach (short.map Prod.fst)).run s).1 = short ∧
          ((performEach (short.map Prod.fst)).run s).2.store =
            ((performEach actions).run s).2.store) ∧
      (∀ (a : Interaction) (s : ServiceState Unreliable), (a.perform.run s).1.IsRefusal →
        (a.perform.run s).2.store.memory.trees = s.store.memory.trees) ∧
      ∀ (actions : List Interaction) (s : ServiceState Unreliable),
        ∀ entry ∈ ((performEach actions).run s).2.store.memory.trees,
          entry ∈ s.store.memory.trees ∨
            ∃ c, .call c ∈ actions ∧
              c.MayStore entry.1 (entry.2.map StoredNode.toView) := by
  refine ⟨?_, ?_, ?_, ?_⟩
  · intro a s h
    exact h.store_eq
  · intro actions s short h
    exact performEach_erased rfl h
  · intro a s h
    exact (Interaction.Fruitless.of_isRefusal a s h).undisturbed.trees
  · intro actions s entry h
    exact mem_trees_performEach h

/-- A page is shown, a text is stored and a stranger fails to delete it; an archive of three
nodes is converted until the second identity is refused. -/
theorem unsuccessful_leaves_no_trace_midway :
    let config : Config := ⟨⟨1000, 20⟩, true, true⟩
    let svc : Service := ⟨config, .unrestricted, {}⟩
    let stranger : Service := ⟨config, ⟨fun _ => .granted, false⟩, {}⟩
    let source := Source.ofStreams [("h", .ofBytes [60, 112, 62]), ("b", .ofBytes [0x68, 0x69]),
      ("zip", .ofBytes Service.awkwardArchive)]
    let zip : Bitstream := ⟨"zip", some "a.zip", "application/zip", 3⟩
    let page : Interaction := .call ⟨svc, .page source ⟨"h", none, "text/html", 1⟩⟩
    let ensure : Interaction :=
      .call ⟨svc, .ensure source ⟨"b", some "notes.txt", "text/plain", 2⟩⟩
    let delete : Interaction := .call ⟨stranger, .delete "b"⟩
    let archive : Interaction := .call ⟨svc, .ensure source zip⟩
    let failing : ServiceState Unreliable :=
      { store := { faults := { fails := fun operation n => operation = .nextId && 2 ≤ n } } }
    (page.perform.run fresh).2.store = fresh.store ∧
      ((performEach [ensure]).run fresh).2.store =
        ((performEach [page, ensure, delete]).run fresh).2.store ∧
      ((performEach [ensure]).run fresh).2.store.has "b" = true ∧
      (archive.perform.run failing).2.store.memory.trees = [] ∧
      (archive.perform.run failing).2.store.memory.nextId = 2 ∧
      ∃ roots c, ("b", roots) ∈ ((performEach [ensure]).run failing).2.store.memory.trees ∧
        .call c ∈ [ensure] ∧ c.MayStore "b" (roots.map StoredNode.toView) := by
  intro config svc stranger source zip page ensure delete archive failing
  obtain ⟨hone, hrun, hfailing, hstored⟩ := unsuccessful_leaves_no_trace
  have hpage : page.Fruitless (page.perform.run fresh).1 := .html svc source (by decide) _
  have hdelete (s : ServiceState Memory) : delete.Fruitless (delete.perform.run s).1 :=
    .refused stranger "b" (.forbidden "b")
  obtain ⟨hbroken, hused⟩ : ((svc.ensure source zip).run.run failing).1.isOk = false ∧
      ((svc.ensure source zip).run.run failing).2.store.memory.nextId = 2 := by
    decide +kernel
  have hempty : failing.store.memory.trees = [] := rfl
  have hkept : ((performEach [ensure]).run fresh).2.store.has "b" = true := by decide +kernel
  have hhas : ((performEach [ensure]).run failing).2.store.memory.has "b" = true := by
    decide +kernel
  clear_value failing zip source stranger svc
  have hrefusal : (archive.perform.run failing).1.IsRefusal := by
    change (Response.answer (.outcome ((svc.ensure source zip).run.run failing).1)).IsRefusal
    cases hanswer : ((svc.ensure source zip).run.run failing).1 with
    | error e => exact .outcome e
    | ok outcome =>
        rw [hanswer] at hbroken
        cases hbroken
  have herased : Erased ((performEach [page, ensure, delete]).run fresh).1
      [(ensure, (ensure.perform.run (page.perform.run fresh).2).1)] :=
    .drop hpage (.keep _ (.drop (hdelete _) .nil))
  obtain ⟨roots, hlookup⟩ := Option.isSome_iff_exists.1 hhas
  have hmem := Keyed.mem_of_lookup hlookup
  refine ⟨hone page fresh hpage, (hrun _ fresh _ herased).2, hkept,
    (hfailing archive failing hrefusal).trans hempty, hused, ?_⟩
  rcases hstored [ensure] failing _ hmem with hbefore | ⟨c, hc, hmay⟩
  · rw [hempty] at hbefore
    cases hbefore
  · exact ⟨roots, c, hmem, hc, hmay⟩

end ContentPreview
