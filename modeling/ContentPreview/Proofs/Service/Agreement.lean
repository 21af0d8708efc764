import ContentPreview.Proofs.Service.Effect

/-!
# Showing a preview and making sure of one

Two operations store a missing preview: one shows it, the other reports what
became of it.  They decide in different orders, and only the first reads a page,
because it has to show it.  With generation on page load they nevertheless leave the
same store, and the answer of one can be told from that of the other.

`Accords` lists the pairs of answers that go together, one for each way that the two
operations end, and what is stored before and after.  Both operations ask the gate
and the store first; what is left is a bitstream without a preview, and there the
kind and what was made of its content settle both answers (`accords_made`).

## Main definitions

* `Service.Accords` — the two answers go together.

## Main results

* `getOrGenerate_agrees_ensure` — the two operations agree on every bitstream.
-/

namespace ContentPreview

namespace Service

/-- The answers of the two operations on a bitstream that go together, where `before`
and `after` are the store before the one of them and after it. -/
inductive Accords (b : Bitstream) (before after : Memory) :
    Except PreviewError (List View) → Except PreviewError Outcome → Prop where
  | failed (e : PreviewError) : Accords b before after (.error e) (.error e)
  | denied : Accords b before after (.ok []) (.ok .denied)
  | existing {roots : List View} (h : before.shown? b.id = some roots) :
      Accords b before after (.ok roots) (.ok .existing)
  | stored {roots : List View} (h : after.shown? b.id = some roots) :
      Accords b before after (.ok roots) (.ok (.stored (View.totalNodes roots)))
  | empty : Accords b before after (.ok []) (.ok .empty)
  | transient {roots : List View} (hkind : b.kind = .html) (hsame : after = before) :
      Accords b before after (.ok roots) (.ok .transient)

section

variable (svc : Service) (source : Source) (b : Bitstream)

/-- Without a preview, the answers are what was made and the verdict on it.  Only a page is
read to be shown and not kept. -/
theorem accords_made (m : Memory) (hgate : svc.canPreview b = true) (hhas : m.has b.id = false) :
    Accords b m (m.fill b.id (svc.keepable? source b)) (svc.made source b)
      (svc.verdict source b) := by
  unfold verdict
  by_cases hunsupported : b.kind = .unsupported
  · have hmade : svc.made source b = .ok [] := if_pos hunsupported
    rw [if_pos hunsupported, hmade]
    exact .empty
  rw [if_neg hunsupported]
  cases hkind : b.kind.isPersistable with
  | false =>
      have hhtml : b.kind = .html := by
        cases hb : b.kind <;> simp_all [Kind.isPersistable]
      obtain ⟨roots, hroots⟩ := made_html svc source hhtml
      rw [hroots, keepable?_of_not_isPersistable hkind, Memory.fill_none]
      exact .transient hhtml rfl
  | true =>
      rw [if_neg (by simp)]
      cases hmade : svc.made source b with
      | error e => exact .failed e
      | ok roots =>
          change Accords b m _ _ (.ok (if roots.isEmpty then .empty else _))
          by_cases hempty : roots.isEmpty = true
          · rw [if_pos hempty, List.isEmpty_iff.1 hempty]
            exact .empty
          · have hkeepable : svc.keepable? source b = some roots := by
              rw [keepable?_of_ok hgate hmade, if_neg (by simp [hempty, hkind])]
            have hnone : m.shown? b.id = none := m.shown?_eq_none.2 hhas
            rw [if_neg hempty]
            refine .stored ?_
            rw [m.shown?_fill (fun _ => keepable?_ne_nil), hnone, if_pos rfl, hkeepable]
            rfl

variable (s : ServiceState Memory)

/-- The two operations leave the same store and answers that go together. -/
theorem accords_ensure (hload : svc.config.generateOnPageLoad = true) :
    ((svc.getOrGenerate source b).run.run s).2.store = ((svc.ensure source b).run.run s).2.store ∧
      Accords b s.store ((svc.getOrGenerate source b).run.run s).2.store
        ((svc.getOrGenerate source b).run.run s).1 ((svc.ensure source b).run.run s).1 := by
  have hstore : ((svc.getOrGenerate source b).run.run s).2.store =
      ((svc.ensure source b).run.run s).2.store := by
    rw [getOrGenerate_store, ensure_store, hload, if_pos rfl]
  refine ⟨hstore, ?_⟩
  cases hgate : svc.canPreview b with
  | false =>
      rw [getOrGenerate_of_denied svc source b s hgate, ensure_of_denied svc source b s hgate]
      exact .denied
  | true =>
      cases hshown : s.store.shown? b.id with
      | some roots =>
          rw [getOrGenerate_of_shown svc source b s hgate hshown,
            ensure_of_shown svc source b s hgate hshown]
          exact .existing hshown
      | none =>
          have hhas := s.store.shown?_eq_none.1 hshown
          obtain ⟨opens, ledger, hget⟩ :=
            getOrGenerate_of_missing svc source b s hgate hhas hload
          obtain ⟨opens', ledger', hensure⟩ := ensure_of_missing svc source b s hgate hhas
          rw [hget, hensure]
          dsimp only
          exact accords_made svc source b s.store hgate hhas

end

/-- **Showing a preview and making sure of one agree.**  From any state, with
generation on page load, they leave the same store, and one fails exactly if the other
does, with the same error.  Where the report is that the caller was denied or that there
is nothing to show, nothing is shown; where a preview existed, it is shown; where one was
stored, it is what is shown and what is stored now, and its nodes are counted; and only
a page is not kept, and nothing is stored for it. -/
theorem getOrGenerate_agrees_ensure (svc : Service) (source : Source) (b : Bitstream)
    (s : ServiceState Memory) (hload : svc.config.generateOnPageLoad = true) :
    let shown := (svc.getOrGenerate source b).run.run s
    let ensured := (svc.ensure source b).run.run s
    shown.2.store = ensured.2.store ∧
      (∀ e, ensured.1 = .error e ↔ shown.1 = .error e) ∧
      (ensured.1 = .ok .denied → shown.1 = .ok []) ∧
      (ensured.1 = .ok .existing →
        ∃ roots, s.store.shown? b.id = some roots ∧ shown.1 = .ok roots) ∧
      (∀ nodes, ensured.1 = .ok (.stored nodes) → ∃ roots, shown.1 = .ok roots ∧
        View.totalNodes roots = nodes ∧ shown.2.store.shown? b.id = some roots) ∧
      (ensured.1 = .ok .empty → shown.1 = .ok []) ∧
      (ensured.1 = .ok .transient → b.kind = .html ∧ shown.2.store = s.store) := by
  intro shown ensured
  obtain ⟨hstore, haccords⟩ := accords_ensure svc source b s hload
  change Accords b s.store shown.2.store shown.1 ensured.1 at haccords
  refine ⟨hstore, ?_⟩
  generalize shown.2.store = after at haccords ⊢
  generalize shown.1 = answer at haccords ⊢
  generalize ensured.1 = report at haccords ⊢
  cases haccords with
  | failed e => simp
  | denied => simp
  | existing h => simp [h]
  | stored h => simp [h]
  | empty => simp
  | transient hkind hsame => simp [hkind, hsame]

/-- A text that is made and stored while the store holds the preview of something
else. -/
theorem getOrGenerate_agrees_ensure_text :
    let svc : Service := ⟨⟨⟨1000, 20⟩, true, true⟩, .unrestricted, {}⟩
    let source := Source.ofStreams [("b", .ofBytes [0x68, 0x69])]
    let b : Bitstream := ⟨"b", some "notes.txt", "text/plain", 1⟩
    let s : ServiceState Memory := { store := ({} : Memory).keep "a" [.file "a" 1] }
    ((svc.ensure source b).run.run s).1 = .ok (.stored 1) ∧
      ∃ roots, ((svc.getOrGenerate source b).run.run s).1 = .ok roots ∧
        View.totalNodes roots = 1 ∧
        ((svc.getOrGenerate source b).run.run s).2.store.shown? "b" = some roots := by
  intro svc source b s
  have hkind : b.kind = .plainText := by decide
  have hopens : source.content? b = some (.ofBytes [0x68, 0x69]) := rfl
  have hmade := made_ofBytes svc hkind (by decide) hopens (by decide)
  obtain ⟨opens, ledger, hensure⟩ := ensure_of_missing svc source b s rfl rfl
  have hreport : ((svc.ensure source b).run.run s).1 = .ok (.stored 1) := by
    rw [hensure]
    unfold verdict
    rw [if_neg (by simp [hkind]), if_neg (by simp [hkind, Kind.isPersistable]), hmade]
    rfl
  have hagrees := getOrGenerate_agrees_ensure svc source b s rfl
  exact ⟨hreport, hagrees.2.2.2.2.1 1 hreport⟩

end Service

end ContentPreview
