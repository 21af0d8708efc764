import ContentPreview.Proofs.Service.Effect

/-!
# What a denied caller can learn

Nothing.  The gate is asked before anything else, so the two operations that may make a
preview end there, over any store and for any content: the answer is always the same,
and the state is what it was.  In a sweep an entry that is denied is counted, and that
is all that it does.  Those that come after it run as if it had not been in the list.

## Main definitions

* `SweepReport.ofAdmitted` — what a report says of the entries that the gate admits.

## Main results

* `sweepFrom_filter` — a sweep with and without the entries that are denied.
* `denied_isolated` — the operations and the sweep together.
-/

namespace ContentPreview

/-- What a report says of the entries that the gate admits. -/
def SweepReport.ofAdmitted (report : SweepReport) : SweepReport :=
  { report with processed := 0, denied := 0 }

namespace SweepReport

variable {report report' : SweepReport}

theorem ofAdmitted_note_denied (report : SweepReport) (b : Bitstream) :
    (report.note b (.ok .denied)).ofAdmitted = report.ofAdmitted := rfl

theorem ofAdmitted_note (h : report.ofAdmitted = report'.ofAdmitted) (b : Bitstream)
    (answer : Except PreviewError Outcome) :
    (report.note b answer).ofAdmitted = (report'.note b answer).ofAdmitted := by
  have hcommutes (r : SweepReport) : (r.note b answer).ofAdmitted =
      (r.ofAdmitted.note b answer).ofAdmitted := by
    cases answer with
    | error e => rfl
    | ok outcome => cases outcome <;> rfl
  rw [hcommutes report, hcommutes report', h]

/-- Reports that say the same of what is admitted differ in two counts only. -/
theorem eq_of_ofAdmitted (h : report.ofAdmitted = report'.ofAdmitted) :
    report = { report' with processed := report.processed, denied := report.denied } :=
  congrArg (fun r : SweepReport =>
    { r with processed := report.processed, denied := report.denied }) h

end SweepReport

namespace Service

/-- An entry that is denied makes no difference to the sweep of the others. -/
theorem sweepFrom_filter {σ : Type} [Store σ] (svc : Service) (source : Source)
    (bs : List Bitstream) {report report' : SweepReport} (sent sent' : List SweepProgress)
    (s : ServiceState σ) (h : report.ofAdmitted = report'.ofAdmitted) :
    ((svc.sweepFrom source bs report sent).run s).2 =
        ((svc.sweepFrom source (bs.filter svc.canPreview) report' sent').run s).2 ∧
      ((svc.sweepFrom source bs report sent).run s).1.1.ofAdmitted =
        ((svc.sweepFrom source (bs.filter svc.canPreview) report' sent').run s).1.1.ofAdmitted := by
  induction bs generalizing report report' sent sent' s with
  | nil => exact ⟨rfl, h⟩
  | cons b rest ih =>
      rw [sweepFrom_cons]
      cases hgate : svc.canPreview b with
      | false =>
          rw [List.filter_cons_of_neg (by simp [hgate]), ensure_of_denied svc source b s hgate]
          exact ih _ _ s ((report.ofAdmitted_note_denied b).trans h)
      | true =>
          rw [List.filter_cons_of_pos hgate, sweepFrom_cons]
          exact ih _ _ _ (SweepReport.ofAdmitted_note h b _)

/-- **A denied caller learns nothing.**  Where the gate does not admit a bitstream, the two
operations that may make a preview have one answer, whatever the store holds, whichever
of its operations fail and whatever the source holds, and they leave the state as it
was, the count of opened content included.  Without the entries that the gate does not
admit, a sweep ends in the same state with the same report, the numbers of entries and
of denied ones aside. -/
theorem denied_isolated {σ : Type} [Store σ] (svc : Service) :
    (∀ b, svc.canPreview b = false → ∀ (source : Source) (s : ServiceState σ),
        (svc.getOrGenerate source b).run.run s = (.ok [], s) ∧
          (svc.ensure source b).run.run s = (.ok .denied, s)) ∧
      ∀ (source : Source) (s : ServiceState σ) (bs : List Bitstream),
        let whole := (svc.sweep source bs).run s
        let admitted := (svc.sweep source (bs.filter svc.canPreview)).run s
        whole.2 = admitted.2 ∧
          whole.1.1 = { admitted.1.1 with
            processed := whole.1.1.processed, denied := whole.1.1.denied } := by
  refine ⟨?_, ?_⟩
  · intro b hgate source s
    exact ⟨getOrGenerate_of_denied svc source b s hgate, ensure_of_denied svc source b s hgate⟩
  · intro source s bs whole admitted
    obtain ⟨hstate, hreport⟩ := sweepFrom_filter svc source bs [] [] s rfl
    exact ⟨hstate, SweepReport.eq_of_ofAdmitted hreport⟩

/-- A store in which every operation fails, and a license that one bitstream waits for. -/
theorem denied_isolated_failing :
    let svc : Service := ⟨{}, .listed [] ["b"] false, {}⟩
    let b : Bitstream := ⟨"b", some "b.txt", "text/plain", 1⟩
    let c : Bitstream := ⟨"c", some "c.txt", "text/plain", 2⟩
    let source := Source.ofStreams [("b", .ofBytes [0x68, 0x69])]
    let s : ServiceState Unreliable := { store := { faults := { fails := fun _ _ => true } } }
    svc.canPreview b = false ∧
      (svc.getOrGenerate source b).run.run s = (.ok [], s) ∧
      (svc.ensure source b).run.run s = (.ok .denied, s) ∧
      ((svc.sweep source [b, c, b]).run s).2 = ((svc.sweep source [c]).run s).2 ∧
      ((svc.sweep source [b, c, b]).run s).1.1.failures =
        ((svc.sweep source [c]).run s).1.1.failures := by
  intro svc b c source s
  have hgate : svc.canPreview b = false := by decide
  obtain ⟨hdenied, hswept⟩ := denied_isolated (σ := Unreliable) svc
  obtain ⟨hshown, hensured⟩ := hdenied b hgate source s
  obtain ⟨hstate, hreport⟩ := hswept source s [b, c, b]
  have hadmitted : [b, c, b].filter svc.canPreview = [c] := by decide
  rw [hadmitted] at hstate hreport
  refine ⟨hgate, hshown, hensured, hstate, ?_⟩
  rw [hreport]

end Service

end ContentPreview
