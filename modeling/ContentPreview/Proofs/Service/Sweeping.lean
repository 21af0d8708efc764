import ContentPreview.Proofs.Service.Effect

/-!
# What a sweep leaves behind

A sweep is a fold over one store, and what an entry does depends on what those before
it stored.  Under a single identifier the outcome is simple: what was there stays, and
otherwise the first entry with that identifier counts that has something to store.
Whether an entry has something to store is no matter of the store (`Offers`).

An entry that stores nothing at its turn leaves the store exactly as it was, the next
identity included.  So the sweep goes on from there as if that entry had not been in
the list.

## Main definitions

* `Service.Offers` — a bitstream has a preview that may be stored.

## Main results

* `shown?_sweep_first_offer` — what is stored after a sweep, under every identifier.
-/

namespace ContentPreview

namespace Service

/-- A bitstream offers a preview: the caller is admitted, previews of this kind are kept,
the content opens, and the preview of it is not empty. -/
structure Offers (svc : Service) (source : Source) (b : Bitstream) (roots : List View) :
    Prop where
  admitted : svc.canPreview b = true
  persistable : b.kind.isPersistable = true
  opened : ∃ stream, source.content? b = some stream ∧
    ∀ ledger, ((svc.generate b stream).run ledger).1 = .ok roots
  nonempty : roots ≠ []

variable {svc : Service} {source : Source} {b : Bitstream} {roots : List View}

theorem Offers.supported (h : svc.Offers source b roots) : b.kind ≠ .unsupported := by
  intro hkind
  have hpersistable := h.persistable
  rw [hkind] at hpersistable
  cases hpersistable

theorem Offers.made (h : svc.Offers source b roots) : svc.made source b = .ok roots := by
  obtain ⟨stream, hcontent, hgenerate⟩ := h.opened
  unfold Service.made
  rw [if_neg h.supported, hcontent]
  exact hgenerate {}

theorem Offers.verdict (h : svc.Offers source b roots) :
    svc.verdict source b = .ok (.stored (View.totalNodes roots)) := by
  unfold Service.verdict
  rw [if_neg h.supported, if_neg (by simp [h.persistable]), h.made]
  simp [Except.map, h.nonempty]

theorem offers_of_made (hgate : svc.canPreview b = true) (hkind : b.kind.isPersistable = true)
    (hmade : svc.made source b = .ok roots) (hne : roots ≠ []) : svc.Offers source b roots := by
  refine ⟨hgate, hkind, ?_, hne⟩
  unfold Service.made at hmade
  by_cases hunsupported : b.kind = .unsupported
  · rw [if_pos hunsupported, Except.ok.injEq] at hmade
    exact absurd hmade.symm hne
  rw [if_neg hunsupported] at hmade
  cases hcontent : source.content? b with
  | none =>
      simp only [hcontent, Except.ok.injEq] at hmade
      exact absurd hmade.symm hne
  | some stream =>
      simp only [hcontent] at hmade
      refine ⟨stream, rfl, fun ledger => ?_⟩
      rw [generate_answer stream ledger {}, hmade]

/-- A text that is there in full, and is read in full, is offered. -/
theorem offers_ofBytes {bytes : List UInt8} (hgate : svc.canPreview b = true)
    (hkind : b.kind = .plainText) (hname : hasArchiveExtension b.nameOrEmpty = false)
    (hcontent : source.content? b = some (.ofBytes bytes))
    (hshort : bytes.length ≤ svc.byteLimit.toNat) :
    svc.Offers source b (textNode b
      (truncateText svc.config.maxContentLength (Text.Utf8.decodeLossy bytes))) := by
  have hpersistable : b.kind.isPersistable = true := by
    rw [hkind]
    rfl
  exact offers_of_made hgate hpersistable (made_ofBytes svc hkind hname hcontent hshort)
    (List.cons_ne_nil _ _)

/-- What may be stored is what is offered. -/
theorem keepable?_eq_some_iff :
    svc.keepable? source b = some roots ↔ svc.Offers source b roots := by
  constructor
  · intro h
    have hne : roots ≠ [] := keepable?_ne_nil h
    cases hgate : svc.canPreview b with
    | false =>
        rw [keepable?_of_denied hgate] at h
        cases h
    | true =>
        cases hkind : b.kind.isPersistable with
        | false =>
            rw [keepable?_of_not_isPersistable hkind] at h
            cases h
        | true =>
            cases hmade : svc.made source b with
            | error e =>
                rw [keepable?_of_error hmade] at h
                cases h
            | ok made =>
                rw [keepable?_of_ok hgate hmade] at h
                by_cases hleft : (made.isEmpty || !b.kind.isPersistable) = true
                · rw [if_pos hleft] at h
                  cases h
                · rw [if_neg hleft, Option.some.injEq] at h
                  subst h
                  exact offers_of_made hgate hkind hmade hne
  · intro h
    have hkept : ¬ (roots.isEmpty || !b.kind.isPersistable) = true := by
      simp [h.nonempty, h.persistable]
    rw [keepable?_of_ok h.admitted h.made, if_neg hkept]

theorem keepable?_eq_none_iff :
    svc.keepable? source b = none ↔ ∀ roots, ¬ svc.Offers source b roots := by
  rw [Option.eq_none_iff_forall_ne_some]
  exact forall_congr' fun roots => not_congr keepable?_eq_some_iff

/-! ## One entry -/

section

variable (svc source b) (s : ServiceState Memory)

/-- An entry that is not answered as stored leaves the store as it was. -/
theorem ensure_store_of_not_stored
    (h : ∀ nodes, ((svc.ensure source b).run.run s).1 ≠ .ok (.stored nodes)) :
    ((svc.ensure source b).run.run s).2.store = s.store := by
  cases hgate : svc.canPreview b with
  | false => rw [ensure_of_denied svc source b s hgate]
  | true =>
      cases hshown : s.store.shown? b.id with
      | some roots => rw [ensure_of_shown svc source b s hgate hshown]
      | none =>
          obtain ⟨opens, ledger, hrun⟩ :=
            ensure_of_missing svc source b s hgate (s.store.shown?_eq_none.1 hshown)
          rw [hrun] at h ⊢
          dsimp only at h ⊢
          cases hkeepable : svc.keepable? source b with
          | none => exact Memory.fill_none _ _
          | some roots =>
              have hoffers := keepable?_eq_some_iff.1 hkeepable
              exact absurd hoffers.verdict (h (View.totalNodes roots))

/-! ## The whole list -/

/-- The first entry with an identifier that offers a preview. -/
theorem findSome?_keepable_eq_some_iff (bs : List Bitstream) (i : BitstreamId)
    (roots : List View) :
    (bs.findSome? fun b => if b.id = i then svc.keepable? source b else none) = some roots ↔
      ∃ front b rest, bs = front ++ b :: rest ∧ b.id = i ∧ svc.Offers source b roots ∧
        ∀ c ∈ front, c.id = i → ∀ other, ¬ svc.Offers source c other := by
  rw [List.findSome?_eq_some_iff]
  constructor
  · rintro ⟨front, b, rest, hsplit, hfound, hbefore⟩
    by_cases hid : b.id = i
    · rw [if_pos hid] at hfound
      refine ⟨front, b, rest, hsplit, hid, keepable?_eq_some_iff.1 hfound, ?_⟩
      intro c hc hcid
      have hnone := hbefore c hc
      rw [if_pos hcid] at hnone
      exact keepable?_eq_none_iff.1 hnone
    · rw [if_neg hid] at hfound
      cases hfound
  · rintro ⟨front, b, rest, hsplit, hid, hoffers, hbefore⟩
    refine ⟨front, b, rest, hsplit, ?_, ?_⟩
    · rw [if_pos hid]
      exact keepable?_eq_some_iff.2 hoffers
    · intro c hc
      by_cases hcid : c.id = i
      · rw [if_pos hcid]
        exact keepable?_eq_none_iff.2 (hbefore c hc hcid)
      · rw [if_neg hcid]

theorem findSome?_keepable_eq_none_iff (bs : List Bitstream) (i : BitstreamId) :
    (bs.findSome? fun b => if b.id = i then svc.keepable? source b else none) = none ↔
      ∀ b ∈ bs, b.id = i → ∀ roots, ¬ svc.Offers source b roots := by
  rw [List.findSome?_eq_none_iff]
  refine forall₂_congr fun b _ => ?_
  by_cases hid : b.id = i
  · rw [if_pos hid, keepable?_eq_none_iff]
    exact ⟨fun h _ => h, fun h => h hid⟩
  · simp [hid]

end

/-- **What a sweep leaves behind.**  A preview that was stored before a sweep is stored
after it.  Where nothing was stored, the preview is that of the first entry with the
identifier that offers one, and there is none if no entry does.  An entry that is not
answered as stored at its turn, for whatever reason, makes no difference: the store is
the same as after the sweep without it. -/
theorem shown?_sweep_first_offer (svc : Service) (source : Source) (s : ServiceState Memory)
    (bs : List Bitstream) :
    let after := ((svc.sweep source bs).run s).2.store
    (∀ i roots, s.store.shown? i = some roots → after.shown? i = some roots) ∧
      (∀ i, s.store.has i = false →
        (∀ roots, after.shown? i = some roots ↔
          ∃ front b rest, bs = front ++ b :: rest ∧ b.id = i ∧ svc.Offers source b roots ∧
            ∀ c ∈ front, c.id = i → ∀ other, ¬ svc.Offers source c other) ∧
        (after.has i = false ↔ ∀ b ∈ bs, b.id = i → ∀ roots, ¬ svc.Offers source b roots)) ∧
      ∀ front c rest, bs = front ++ c :: rest →
        (∀ nodes, ((svc.ensure source c).run.run ((svc.sweep source front).run s).2).1 ≠
          .ok (.stored nodes)) →
        after = ((svc.sweep source (front ++ rest)).run s).2.store := by
  intro after
  have hafter (i : BitstreamId) : after.shown? i = (s.store.shown? i).or
      (bs.findSome? fun b => if b.id = i then svc.keepable? source b else none) := by
    change ((svc.sweep source bs).run s).2.store.shown? i = _
    rw [sweep_store, shown?_foldl_fill]
  refine ⟨?_, ?_, ?_⟩
  · intro i roots hshown
    rw [hafter, hshown, Option.some_or]
  · intro i hfree
    have hfound := hafter i
    rw [s.store.shown?_eq_none.2 hfree, Option.none_or] at hfound
    constructor
    · intro roots
      rw [hfound, findSome?_keepable_eq_some_iff]
    · rw [← Memory.shown?_eq_none, hfound, findSome?_keepable_eq_none_iff]
  · intro front c rest hbs hturn
    have hsame := ensure_store_of_not_stored svc source c _ hturn
    rw [ensure_store, sweep_store] at hsame
    change ((svc.sweep source bs).run s).2.store = _
    rw [hbs, sweep_store, sweep_store, List.foldl_append, List.foldl_append, List.foldl_cons,
      hsame]

/-- A text that is described first under the name of an archive, which is an error, and
then under its own. -/
theorem shown?_sweep_first_offer_described_twice :
    let svc : Service := ⟨⟨⟨1000, 20⟩, true, false⟩, .unrestricted, {}⟩
    let source := Source.ofStreams [("b", .ofBytes [0x68, 0x69])]
    let archive : Bitstream := ⟨"b", some "notes.zip", "text/plain", 1⟩
    let text : Bitstream := ⟨"b", some "notes.txt", "text/plain", 2⟩
    let s : ServiceState Memory := { store := {} }
    ((svc.sweep source [archive, text]).run s).2.store.shown? "b" =
      some [View.text "notes.txt" "hi"] := by
  intro svc source archive text s
  have hkind : text.kind = .plainText := by decide
  have hopens : source.content? text = some (.ofBytes [0x68, 0x69]) := rfl
  have hmade := made_ofBytes svc hkind (by decide) hopens (by decide)
  have hcontent : truncateText 20 (Text.Utf8.decodeLossy [0x68, 0x69]) = "hi" := by decide
  have htext : svc.Offers source text [View.text "notes.txt" "hi"] := by
    refine offers_of_made rfl (by rw [hkind]; rfl) ?_ (List.cons_ne_nil _ _)
    rw [hmade]
    exact congrArg (fun content => Except.ok (textNode text content)) hcontent
  have harchive (other : List View) : ¬ svc.Offers source archive other := by
    intro hoffers
    have hopens : source.content? archive = some (.ofBytes [0x68, 0x69]) := rfl
    have herror := made_mislabelled svc (by decide) (by decide) hopens
    rw [hoffers.made] at herror
    cases herror
  have hfound := ((shown?_sweep_first_offer svc source s [archive, text]).2.1 "b" rfl).1
    [View.text "notes.txt" "hi"]
  refine hfound.2 ⟨[archive], text, [], rfl, rfl, htext, ?_⟩
  intro c hc _ other
  rw [List.mem_singleton.1 hc]
  exact harchive other

end Service

end ContentPreview
