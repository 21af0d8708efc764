import ContentPreview.Proofs.Service.Effect

/-!
# A sweep that goes on

A sweep over two lists in a row is a sweep over the second that goes on from the report, the
messages and the state of the first.  Over any store, what was reported and sent by then
stays, and comes first.

## Main results

* `sweepFrom_append` — a sweep over two lists.
* `prefix_sweep` — a longer sweep begins with what a shorter one reports.
* `report_sweep_concat`, `sent_sweep_concat` — one bitstream more.
-/

namespace ContentPreview.Service

variable {σ : Type} [Store σ] (svc : Service) (source : Source)

/-- A sweep over two lists is a sweep over the second that goes on from the first. -/
theorem sweepFrom_append (front rest : List Bitstream) (report : SweepReport)
    (sent : List SweepProgress) (s : ServiceState σ) :
    (svc.sweepFrom source (front ++ rest) report sent).run s =
      (svc.sweepFrom source rest ((svc.sweepFrom source front report sent).run s).1.1
        ((svc.sweepFrom source front report sent).run s).1.2).run
        ((svc.sweepFrom source front report sent).run s).2 := by
  induction front generalizing report sent s with
  | nil => rfl
  | cons b front ih =>
      rw [List.cons_append, sweepFrom_cons, sweepFrom_cons]
      exact ih _ _ _

/-! ## What stays -/

/-- A failure that was noted stays in the report. -/
theorem failures_prefix_note (report : SweepReport) (b : Bitstream)
    (answer : Except PreviewError Outcome) :
    report.failures <+: (report.note b answer).failures := by
  cases answer with
  | error e => exact List.prefix_append _ _
  | ok outcome => cases outcome <;> exact List.prefix_rfl

theorem prefix_sweepFrom (bs : List Bitstream) (report : SweepReport)
    (sent : List SweepProgress) (s : ServiceState σ) :
    let swept := (svc.sweepFrom source bs report sent).run s
    report.failures <+: swept.1.1.failures ∧ sent <+: swept.1.2 := by
  intro swept
  induction bs generalizing report sent s with
  | nil => exact ⟨List.prefix_rfl, List.prefix_rfl⟩
  | cons b rest ih =>
      obtain ⟨hfailures, hsent⟩ := ih (report.note b ((svc.ensure source b).run.run s).1)
        (sent ++ ((report.note b ((svc.ensure source b).run.run s).1).message? b).toList)
        ((svc.ensure source b).run.run s).2
      constructor
      · exact (failures_prefix_note report b _).trans hfailures
      · exact (List.prefix_append _ _).trans hsent

/-- A longer sweep begins with the failures and the messages of a shorter one. -/
theorem prefix_sweep (front rest : List Bitstream) (s : ServiceState σ) :
    let swept := (svc.sweep source front).run s
    let whole := (svc.sweep source (front ++ rest)).run s
    swept.1.1.failures <+: whole.1.1.failures ∧ swept.1.2 <+: whole.1.2 := by
  unfold sweep
  rw [sweepFrom_append]
  exact prefix_sweepFrom svc source rest _ _ _

theorem failures_prefix_sweep (front : List Bitstream) (b : Bitstream) (rest : List Bitstream)
    (s : ServiceState σ) :
    ((svc.sweep source (front ++ [b])).run s).1.1.failures <+:
      ((svc.sweep source (front ++ b :: rest)).run s).1.1.failures := by
  rw [List.append_cons front b rest]
  exact (prefix_sweep svc source (front ++ [b]) rest s).1

/-! ## One bitstream more -/

/-- The report behind one more entry. -/
theorem report_sweep_concat (front : List Bitstream) (b : Bitstream) (s : ServiceState σ) :
    ((svc.sweep source (front ++ [b])).run s).1.1 =
      ((svc.sweep source front).run s).1.1.note b
        ((svc.ensure source b).run.run ((svc.sweep source front).run s).2).1 := by
  unfold sweep
  rw [sweepFrom_append, sweepFrom_cons]
  rfl

/-- Behind one more entry comes the message that is due on the report by then. -/
theorem sent_sweep_concat (front : List Bitstream) (b : Bitstream) (s : ServiceState σ) :
    ((svc.sweep source (front ++ [b])).run s).1.2 =
      ((svc.sweep source front).run s).1.2 ++
        (((svc.sweep source (front ++ [b])).run s).1.1.message? b).toList := by
  rw [report_sweep_concat]
  unfold sweep
  rw [sweepFrom_append, sweepFrom_cons]
  rfl

theorem report_sweep_singleton (b : Bitstream) (s : ServiceState σ) :
    ((svc.sweep source [b]).run s).1.1 =
      ({} : SweepReport).note b ((svc.ensure source b).run.run s).1 := rfl

end ContentPreview.Service
