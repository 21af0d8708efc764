import ContentPreview.Proofs.Service.Run
import ContentPreview.Proofs.TextPreview

/-!
# A stored preview is stable

Once a call has stored a preview under an identifier, every answer for that
identifier is this preview until somebody deletes it, and no content is opened to
give it.  Nothing else matters: not what the sources hold by then, not how the
bitstream is described, and not what is stored or deleted elsewhere.

One call changes what is stored under an identifier only if nothing was stored
there or if the call is a removal (`shown?_perform`); the rest is an induction on
the run.

## Main results

* `shown?_performAll` — a stored preview outlasts every run without a removal.
* `stable_until_deleted` — the same for runs from the start, with what is answered.
-/

namespace ContentPreview

section Run

variable {s : ServiceState Memory} {i : BitstreamId} {roots : List View}

/-- A stored preview outlasts every run in which it is not deleted. -/
theorem shown?_performAll {calls : List Call} (hshown : s.store.shown? i = some roots)
    (hkept : ∀ e ∈ ((performAll calls).run s).1, ¬ e.1.Removes e.2 i) :
    ((performAll calls).run s).2.store.shown? i = some roots := by
  refine historyOf_keeps_while
    (P := fun s : ServiceState Memory => s.store.shown? i = some roots)
    (Q := fun (c : Call) (answer : Answer) => ¬ c.Removes answer i) ?_ hkept hshown
  intro c s hremoves hshown
  rw [shown?_perform hremoves, hshown, Option.some_or]

/-- A call after which something is stored where nothing was has stored it. -/
theorem shown?_of_stored {c : Call} (hfree : s.store.has i = false)
    (hstored : (c.perform.run s).2.store.has i = true) :
    ∃ roots, c.keeps? i = some roots ∧
      (c.perform.run s).2.store.shown? i = some roots := by
  have hsome : (c.perform.run s).2.store.shown? i ≠ none := by
    rw [ne_eq, Memory.shown?_eq_none, hstored]
    simp
  have hstep := shown?_perform fun hremoves => hsome (shown?_perform_removal hremoves)
  rw [(Memory.shown?_eq_none _).2 hfree, Option.none_or] at hstep
  rw [hstep] at hsome ⊢
  obtain ⟨roots, hroots⟩ := Option.ne_none_iff_exists'.1 hsome
  exact ⟨roots, hroots, hroots⟩

end Run

/-- **A stored preview is stable until it is deleted.**  If a call of a run stores
something for an identifier, it stores the roots that it generated, and after any
further calls none of which was answered as a deletion of this identifier, these
roots are the stored preview and the preview that every admitted caller gets, from
whatever source and for whatever description of the bitstream; giving them changes
nothing, so no content is opened.  A deletion that is refused changes nothing
either. -/
theorem stable_until_deleted {before : List Call} {c : Call} {t : ServiceState Memory}
    {i : BitstreamId} (hfree : ((performAll before).run fresh).2.store.has i = false)
    (hcall : (c.perform.run ((performAll before).run fresh).2).2 = t)
    (hstored : t.store.has i = true) :
    ∃ roots, c.keeps? i = some roots ∧
      ∀ later : List Call, (∀ e ∈ ((performAll later).run t).1, ¬ e.1.Removes e.2 i) →
        let u := ((performAll later).run t).2
        (Service.storedPreview i).run.run u = (.ok roots, u) ∧
          (∀ (svc : Service) (source : Source) (b : Bitstream), b.id = i →
            svc.canPreview b = true →
              (svc.getOrGenerate source b).run.run u = (.ok roots, u)) ∧
          ∀ svc : Service, svc.gate.isAdmin = false →
            (svc.delete i).run.run u = (.error (.forbidden i), u) := by
  subst hcall
  obtain ⟨roots, hkeeps, hshown⟩ := shown?_of_stored hfree hstored
  refine ⟨roots, hkeeps, ?_⟩
  intro later hkept u
  have hlater : u.store.shown? i = some roots := shown?_performAll hshown hkept
  refine ⟨?_, ?_, ?_⟩
  · rw [Service.storedPreview_run, hlater]
    rfl
  · rintro svc source b rfl hgate
    exact Service.getOrGenerate_of_shown svc source b u hgate hlater
  · intro svc hadmin
    exact Service.delete_of_not_admin svc i u hadmin

/-- A text is stored and then withheld by its source and described as a page; in
between somebody without the right to it tries to delete it, and something else is
deleted. -/
theorem stable_until_deleted_redescribed :
    let admin : Service := ⟨⟨⟨1000, 20⟩, true, false⟩, .unrestricted, {}⟩
    let guest : Service := ⟨⟨⟨1000, 20⟩, true, true⟩, .listed ["other"] [] false, {}⟩
    let source := Source.ofStreams [("b", .ofBytes [0x68, 0x69])]
    let b : Bitstream := ⟨"b", some "notes.txt", "text/plain", 1⟩
    let page : Bitstream := ⟨"b", none, "text/html", 2⟩
    let s := ((performAll [⟨admin, .delete "b"⟩]).run fresh).2
    let t := ((⟨admin, .ensure source b⟩ : Call).perform.run s).2
    let u := ((performAll [⟨guest, .delete "b"⟩, ⟨admin, .delete "other"⟩]).run t).2
    (guest.getOrGenerate (.ofStreams []) page).run.run u =
      (.ok [View.text "notes.txt" "hi"], u) := by
  intro admin guest source b page s t u
  have hmade : admin.made source b = .ok [View.text "notes.txt" "hi"] := by
    have hkind : b.kind = .plainText := by decide
    have hname : hasArchiveExtension b.nameOrEmpty = false := by decide
    have hcontent : truncateText 20 (Text.Utf8.decodeLossy [0x68, 0x69]) = "hi" := by decide
    unfold Service.made
    rw [if_neg (by rw [hkind]; decide)]
    change ((admin.generate b (.ofBytes [0x68, 0x69])).run {}).1 = _
    rw [Service.generate_plainText hkind hname, Service.plainTextPreview_eq, if_neg (by decide)]
    exact congrArg (fun text => Except.ok (Service.textNode b text)) hcontent
  have hkeeps : (⟨admin, .ensure source b⟩ : Call).keeps? "b" =
      some [View.text "notes.txt" "hi"] := by
    unfold Call.keeps?
    dsimp only
    rw [if_pos rfl, Service.keepable?_of_ok rfl hmade, if_neg (by decide)]
  have hfree : s.store.has "b" = false := rfl
  have hstored : t.store.has "b" = true := by
    have hshown : t.store.shown? "b" = some [View.text "notes.txt" "hi"] := by
      rw [shown?_perform (fun h => by cases h.1), hkeeps, (Memory.shown?_eq_none _).2 hfree]
      rfl
    exact Memory.has_of_shown hshown
  obtain ⟨roots, hroots, h⟩ := @stable_until_deleted [⟨admin, .delete "b"⟩]
    ⟨admin, .ensure source b⟩ t "b" hfree rfl hstored
  rw [hkeeps] at hroots
  cases hroots
  have hkept : ∀ e ∈ ((performAll [⟨guest, .delete "b"⟩, ⟨admin, .delete "other"⟩]).run t).1,
      ¬ e.1.Removes e.2 "b" := by
    intro e he
    rw [performAll_cons, performAll_cons, List.mem_cons, List.mem_cons] at he
    rcases he with rfl | rfl | he
    · rintro ⟨-, nodes, hanswer⟩
      unfold Call.perform at hanswer
      rw [run_map, Service.delete_of_not_admin guest "b" t rfl] at hanswer
      cases hanswer
    · rintro ⟨hrequest, -⟩
      exact absurd (Request.delete.inj hrequest) (by decide)
    · cases he
  exact (h _ hkept).2.1 guest (.ofStreams []) page rfl rfl

end ContentPreview
