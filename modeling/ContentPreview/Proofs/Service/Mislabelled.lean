import ContentPreview.Proofs.Service.Continuing
import ContentPreview.Proofs.Service.Sweeping

/-!
# Texts under the name of an archive

A bitstream that is declared as plain text and has the file name of an archive is
reported with an error that carries the name and the declared type.  The check needs
neither the content nor the store.  It is made where a preview is generated, and that is
only after the content was opened: content that breaks at its first byte is still
reported, and content that cannot be opened at all has the empty preview before anybody
looks at the name.

All of this is the same over every store whose check for a preview answers that there is
none; no other operation of the store is reached.

## Main definitions

* `Bitstream.IsMislabelled`, `Bitstream.mislabelling` — such a bitstream, and its error.

## Main results

* `made_of_isMislabelled`, `made_of_not_isMislabelled` — what is made of it, and that
  nothing else is an error.
* `ensure_of_isMislabelled`, `getOrGenerate_of_isMislabelled` — what is answered.
* `mislabelled_reported_iff_opens` — the answers and the entry in the report of a sweep.
-/

namespace ContentPreview

/-- A bitstream is declared as plain text and has the file name of an archive. -/
structure Bitstream.IsMislabelled (b : Bitstream) : Prop where
  text : b.kind = .plainText
  archive : hasArchiveExtension b.nameOrEmpty = true

/-- The error that reports a mislabelled bitstream. -/
def Bitstream.mislabelling (b : Bitstream) : PreviewError :=
  .mislabelled b.nameOrEmpty b.mimeType

namespace Service

/-! ## One bitstream -/

section Mislabelled

variable {σ : Type} {b : Bitstream} (svc : Service) (source : Source)

/-- Content that opens is an error under the wrong name, whatever it is. -/
theorem made_of_isMislabelled (hb : b.IsMislabelled) :
    svc.made source b =
      if (source.content? b).isSome then .error b.mislabelling else .ok [] := by
  cases hcontent : source.content? b with
  | some stream => exact made_mislabelled svc hb.text hb.archive hcontent
  | none =>
      unfold made
      rw [if_neg (by simp [hb.text]), hcontent]
      rfl

/-- Nothing else is an error. -/
theorem made_of_not_isMislabelled (hb : ¬ b.IsMislabelled) :
    ∃ roots, svc.made source b = .ok roots := by
  unfold made
  by_cases hunsupported : b.kind = .unsupported
  · exact ⟨[], if_pos hunsupported⟩
  rw [if_neg hunsupported]
  cases source.content? b with
  | none => exact ⟨[], rfl⟩
  | some stream =>
      dsimp only
      unfold generate
      cases hkind : b.kind with
      | plainText =>
          have hname : ¬ hasArchiveExtension b.nameOrEmpty = true := fun h => hb ⟨hkind, h⟩
          dsimp only
          rw [if_neg hname]
          exact ⟨svc.plainTextPreview b stream, rfl⟩
      | html => exact ⟨htmlPreview b stream, rfl⟩
      | unsupported => exact absurd hkind hunsupported
      | zipArchive => exact ⟨((svc.archivePreview .zip stream).run {}).1, rfl⟩
      | tarArchive compression =>
          exact ⟨((svc.archivePreview (.tar compression) stream).run {}).1, rfl⟩

/-- What becomes of a bitstream that is named as declared: pages are passed over, and of
anything else there is a preview to store or nothing to show. -/
theorem verdict_of_not_isMislabelled (hb : ¬ b.IsMislabelled) :
    svc.verdict source b = .ok .transient ∧ b.kind = .html ∨
      b.kind ≠ .html ∧
        (svc.verdict source b = .ok .empty ∨
          ∃ nodes, svc.verdict source b = .ok (.stored nodes)) := by
  unfold verdict
  by_cases hpage : b.kind = .html
  · rw [hpage]
    exact Or.inl ⟨rfl, rfl⟩
  refine Or.inr ⟨hpage, ?_⟩
  by_cases hunsupported : b.kind = .unsupported
  · exact Or.inl (if_pos hunsupported)
  have hpersistable : b.kind.isPersistable = true := by
    cases hkind : b.kind with
    | html => exact absurd hkind hpage
    | unsupported => exact absurd hkind hunsupported
    | plainText => rfl
    | zipArchive => rfl
    | tarArchive compression => rfl
  obtain ⟨roots, hmade⟩ := made_of_not_isMislabelled svc source hb
  rw [if_neg hunsupported, hpersistable, if_neg (by decide), hmade]
  by_cases hempty : roots.isEmpty = true
  · exact Or.inl (congrArg Except.ok (if_pos hempty))
  · exact Or.inr ⟨View.totalNodes roots, congrArg Except.ok (if_neg hempty)⟩

variable [Store σ] {s : ServiceState σ} {t : σ}

theorem ensure_of_isMislabelled (hb : b.IsMislabelled) (hgate : svc.canPreview b = true)
    (hfree : (Store.hasPreview b.id : StoreM σ Bool).run.run s.store = (.ok false, t)) :
    ∃ opens ledger, (svc.ensure source b).run.run s =
      (if (source.content? b).isSome then .error b.mislabelling else .ok .empty,
        ⟨t, opens, ledger⟩) := by
  obtain ⟨opens, ledger, hmade⟩ := generateFrom_run svc source b { s with store := t }
  rw [made_of_isMislabelled svc source hb] at hmade
  refine ⟨opens, ledger, ?_⟩
  unfold ensure
  rw [hgate, if_neg (by simp), run_bind_ok (onStore_ok hfree), if_neg (by simp),
    if_neg (by simp [hb.text]), if_neg (by simp [hb.text, Kind.isPersistable])]
  cases hopens : (source.content? b).isSome with
  | true =>
      rw [hopens, if_pos rfl] at hmade
      exact run_bind_error hmade
  | false =>
      rw [hopens, if_neg (by simp)] at hmade
      exact run_bind_ok hmade

theorem getOrGenerate_of_isMislabelled (hb : b.IsMislabelled) (hgate : svc.canPreview b = true)
    (hload : svc.config.generateOnPageLoad = true)
    (hfree : (Store.hasPreview b.id : StoreM σ Bool).run.run s.store = (.ok false, t)) :
    ∃ opens ledger, (svc.getOrGenerate source b).run.run s =
      (if (source.content? b).isSome then .error b.mislabelling else .ok [],
        ⟨t, opens, ledger⟩) := by
  obtain ⟨opens, ledger, hmade⟩ := generateFrom_run svc source b { s with store := t }
  rw [made_of_isMislabelled svc source hb] at hmade
  refine ⟨opens, ledger, ?_⟩
  unfold getOrGenerate
  rw [hgate, if_neg (by simp), run_bind_ok (onStore_ok hfree), if_neg (by simp), hload,
    if_neg (by simp)]
  cases hopens : (source.content? b).isSome with
  | true =>
      rw [hopens, if_pos rfl] at hmade
      exact run_bind_error hmade
  | false =>
      rw [hopens, if_neg (by simp)] at hmade
      exact run_bind_ok hmade

end Mislabelled

/-- **A mislabelled text is reported exactly if its content opens.**  Over any store that
answers that there is no preview for it, making sure of its preview and, with generation on
page load, showing it give the error for content that opens, also if reading it would
fail, and the answer that there is nothing to show for content that does not open.
Nothing is stored in either case.  In a sweep over any list the entry adds to the
failures in the first case, where it stays, and to the empty ones in the second. -/
theorem mislabelled_reported_iff_opens {σ : Type} [Store σ] (svc : Service) (source : Source)
    {b : Bitstream} (hb : b.IsMislabelled) (hgate : svc.canPreview b = true) :
    (∀ (s : ServiceState σ) (t : σ),
      (Store.hasPreview b.id : StoreM σ Bool).run.run s.store = (.ok false, t) →
      let ensured := (svc.ensure source b).run.run s
      let shown := (svc.getOrGenerate source b).run.run s
      (ensured.1 = .error b.mislabelling ↔ (source.content? b).isSome = true) ∧
        (ensured.1 = .ok .empty ↔ source.content? b = none) ∧ ensured.2.store = t ∧
        (svc.config.generateOnPageLoad = true →
          (shown.1 = .error b.mislabelling ↔ (source.content? b).isSome = true) ∧
            (shown.1 = .ok [] ↔ source.content? b = none) ∧ shown.2.store = t)) ∧
      ∀ (s : ServiceState σ) (front rest : List Bitstream) (t : σ),
        (Store.hasPreview b.id : StoreM σ Bool).run.run
          ((svc.sweep source front).run s).2.store = (.ok false, t) →
        let before := ((svc.sweep source front).run s).1.1
        let behind := ((svc.sweep source (front ++ [b])).run s).1.1
        let whole := ((svc.sweep source (front ++ b :: rest)).run s).1.1
        ((source.content? b).isSome = true →
          behind.failures = before.failures ++ [⟨b.id, b.mislabelling.message⟩] ∧
            behind.empty = before.empty) ∧
          (source.content? b = none →
            behind.failures = before.failures ∧ behind.empty = before.empty + 1) ∧
          behind.failures <+: whole.failures := by
  constructor
  · intro s t hfree ensured shown
    obtain ⟨opens, ledger, hensure⟩ := ensure_of_isMislabelled svc source hb hgate hfree
    have hensured : ensured = _ := hensure
    rw [hensured]
    refine ⟨?_, ?_, rfl, ?_⟩
    · cases (source.content? b) <;> simp
    · cases (source.content? b) <;> simp
    · intro hload
      obtain ⟨opens, ledger, hget⟩ :=
        getOrGenerate_of_isMislabelled svc source hb hgate hload hfree
      have hshown : shown = _ := hget
      rw [hshown]
      refine ⟨?_, ?_, rfl⟩
      · cases (source.content? b) <;> simp
      · cases (source.content? b) <;> simp
  · intro s front rest t hfree before behind whole
    obtain ⟨opens, ledger, hensure⟩ := ensure_of_isMislabelled svc source hb hgate hfree
    have hbehind : behind = before.note b
        (if (source.content? b).isSome then .error b.mislabelling else .ok .empty) := by
      change ((svc.sweep source (front ++ [b])).run s).1.1 = _
      rw [report_sweep_concat, hensure]
    refine ⟨?_, ?_, failures_prefix_sweep svc source front b rest s⟩
    · intro hopens
      rw [hbehind, if_pos hopens]
      exact ⟨rfl, rfl⟩
    · intro hcloses
      rw [hbehind, hcloses]
      exact ⟨rfl, rfl⟩

/-- A text under the name of an archive whose first read fails, in a sweep behind another
text. -/
theorem mislabelled_reported_iff_opens_unreadable :
    let svc : Service := ⟨⟨⟨1000, 20⟩, true, true⟩, .unrestricted, {}⟩
    let b : Bitstream := ⟨"t1", some "archive.zip", "text/plain", 1⟩
    let text : Bitstream := ⟨"t2", some "notes.txt", "text/plain", 2⟩
    let source := Source.ofStreams [("t1", .unreadable "broken"), ("t2", .ofBytes [0x68, 0x69])]
    let s : ServiceState Memory := { store := {} }
    let swept := (svc.sweep source [text]).run s
    b.IsMislabelled ∧ swept.2.store.has "t1" = false ∧
      ((svc.ensure source b).run.run s).1 = .error (.mislabelled "archive.zip" "text/plain") ∧
      ((svc.getOrGenerate source b).run.run s).1 =
        .error (.mislabelled "archive.zip" "text/plain") ∧
      ((svc.sweep source [text, b]).run s).1.1.failures = swept.1.1.failures ++ [⟨"t1",
        "Bitstream 'archive.zip' is declared as text/plain but has an archive extension"⟩] := by
  intro svc b text source s swept
  have hb : b.IsMislabelled := ⟨by decide, by decide⟩
  have hgate : svc.canPreview b = true := rfl
  have hload : svc.config.generateOnPageLoad = true := rfl
  have hopens : (source.content? b).isSome = true := rfl
  have herror : b.mislabelling = .mislabelled "archive.zip" "text/plain" := rfl
  have hmessage : b.mislabelling.message =
      "Bitstream 'archive.zip' is declared as text/plain but has an archive extension" := by
    decide
  have hid : b.id = "t1" := rfl
  have hhas : s.store.has "t1" = false := rfl
  have hfree : ((svc.sweep source [text]).run s).2.store.has "t1" = false := by
    rw [← Memory.shown?_eq_none, sweep_store, shown?_foldl_fill]
    rfl
  clear_value s source text b svc
  obtain ⟨hone, hsweep⟩ := @mislabelled_reported_iff_opens Memory _ svc source b hb hgate
  have hrun : (Store.hasPreview b.id : StoreM Memory Bool).run.run s.store =
      (.ok false, s.store) := by
    rw [Memory.run_hasPreview, hid, hhas]
  have hturn : (Store.hasPreview b.id : StoreM Memory Bool).run.run swept.2.store =
      (.ok false, swept.2.store) := by
    rw [Memory.run_hasPreview, hid, hfree]
  obtain ⟨hensured, -, -, hshown⟩ := hone s s.store hrun
  have hfailures := ((hsweep s [text] [] swept.2.store hturn).1 hopens).1
  rw [hmessage, hid] at hfailures
  refine ⟨hb, hfree, ?_, ?_, hfailures⟩
  · rw [← herror]
    exact hensured.2 hopens
  · rw [← herror]
    exact (hshown hload).1.2 hopens

/-- A text under the name of an archive whose content does not open has an empty preview and
is no failure of a sweep. -/
theorem mislabelled_unopened_is_empty :
    let svc : Service := ⟨⟨⟨1000, 20⟩, true, true⟩, .unrestricted, {}⟩
    let b : Bitstream := ⟨"t1", some "archive.zip", "text/plain", 1⟩
    let source := Source.ofStreams []
    let s : ServiceState Memory := { store := {} }
    let report := ((svc.sweep source [b]).run s).1.1
    b.IsMislabelled ∧ svc.canPreview b = true ∧ s.store.has b.id = false ∧
      ((svc.ensure source b).run.run s).1 = .ok .empty ∧
      ((svc.getOrGenerate source b).run.run s).1 = .ok [] ∧
      report.failures = [] ∧ report.empty = 1 := by
  intro svc b source s report
  have hb : b.IsMislabelled := ⟨by decide, by decide⟩
  have hgate : svc.canPreview b = true := rfl
  have hload : svc.config.generateOnPageLoad = true := rfl
  have hcloses : (source.content? b).isSome = false := rfl
  have hhas : s.store.has b.id = false := rfl
  clear_value s source b svc
  have hfree : (Store.hasPreview b.id : StoreM Memory Bool).run.run s.store =
      (.ok false, s.store) := by
    rw [Memory.run_hasPreview, hhas]
  obtain ⟨_, _, hensure⟩ := ensure_of_isMislabelled svc source hb hgate hfree
  obtain ⟨_, _, hget⟩ := getOrGenerate_of_isMislabelled svc source hb hgate hload hfree
  rw [hcloses, if_neg (by simp)] at hensure hget
  have hreport : report = ({} : SweepReport).note b (.ok .empty) := by
    change ((svc.sweep source [b]).run s).1.1 = _
    rw [report_sweep_singleton, hensure]
  rw [hensure, hget, hreport]
  exact ⟨hb, hgate, hhas, rfl, rfl, rfl, rfl⟩

end Service

end ContentPreview
