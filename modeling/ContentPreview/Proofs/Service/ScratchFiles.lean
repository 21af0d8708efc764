import ContentPreview.Proofs.Extraction
import ContentPreview.Proofs.Service.Interaction

/-!
# Scratch files

A scratch file is released when the computation that uses it ends, in whatever way, so
nothing has to be shown about the ways to end; and all that a service does with scratch
files is to list archives.  What is left is that this holds of each part of an operation,
and then of everything that is put together from the parts, over any store.

## Main definitions

* `KeepsLive` — as many scratch files exist after a computation as before.
* `Activity` — a listing of an archive, or something that is asked of a service.

## Main results

* `keepsLive_compositional` — no operation of a service leaves a scratch file behind.
* `scratch_files_released` — any sequence of activities, and each listing in it.
-/

namespace ContentPreview

/-! ## Operations of a service -/

section Service

variable {σ α : Type}

/-- As many scratch files exist afterwards as before. -/
def KeepsLive (action : StateM (ServiceState σ) α) : Prop :=
  ∀ s : ServiceState σ, (action.run s).2.scratch.live = s.scratch.live

theorem live_tryExtract (x : Extractor) (format : ArchiveFormat) (s : Stream)
    (l : Ledger) : ((tryExtract x format s).run l).2.live = l.live := by
  rw [tryExtract_ledger]

theorem live_extract (x : Extractor) (format : ArchiveFormat) (s : Stream)
    (l : Ledger) : ((extract x format s).run l).2.live = l.live := by
  rw [extract_ledger, live_tryExtract]

theorem live_generate (svc : Service) (b : Bitstream) (s : Stream) (l : Ledger) :
    ((svc.generate b s).run l).2.live = l.live := by
  unfold Service.generate
  cases b.kind with
  | zipArchive => exact live_extract svc.extractor .zip s l
  | tarArchive compression => exact live_extract svc.extractor (.tar compression) s l
  | _ => rfl

/-- No operation of a service leaves a scratch file behind. -/
theorem keepsLive_compositional :
    Service.Compositional (σ := σ) (fun action => KeepsLive action) where
  pure a := fun _ => rfl
  bind := by
    intro α β x next hx hnext s
    rw [StateT.run_bind]
    change ((next (x.run s).1).run (x.run s).2).2.scratch.live = s.scratch.live
    rw [hnext, hx]
  onStore action := by
    intro s
    rw [Service.onStore_run]
  openContent source b := fun _ => rfl
  generate svc b stream := by
    intro s
    rw [Service.onScratch_run]
    dsimp only
    rw [live_generate]

end Service

/-! ## Activities -/

/-- What can be done where scratch files are used: an archive is listed, with its error or
at best effort, or something is asked of a service. -/
inductive Activity where
  | tryExtract (x : Extractor) (format : ArchiveFormat) (s : Stream)
  | extract (x : Extractor) (format : ArchiveFormat) (s : Stream)
  | ask (a : Interaction)

section Activities

variable {σ : Type} [Store σ]

/-- The state after an activity. -/
def Activity.after (s : ServiceState σ) : Activity → ServiceState σ
  | .tryExtract x format stream =>
    { s with scratch := ((ContentPreview.tryExtract x format stream).run s.scratch).2 }
  | .extract x format stream =>
    { s with scratch := ((ContentPreview.extract x format stream).run s.scratch).2 }
  | .ask a => (a.perform.run s).2

/-- The state after some activities. -/
def afterAll (s : ServiceState σ) (activities : List Activity) : ServiceState σ :=
  activities.foldl Activity.after s

theorem live_after (s : ServiceState σ) (a : Activity) :
    (a.after s).scratch.live = s.scratch.live := by
  cases a with
  | tryExtract x format stream => exact live_tryExtract x format stream s.scratch
  | extract x format stream => exact live_extract x format stream s.scratch
  | ask a => exact keepsLive_compositional.perform a s

theorem live_afterAll (s : ServiceState σ) (activities : List Activity) :
    (afterAll s activities).scratch.live = s.scratch.live := by
  induction activities generalizing s with
  | nil => rfl
  | cons a rest ih => exact (ih (a.after s)).trans (live_after s a)

end Activities

/-- **Scratch files are released.**  Whatever is done before, each activity leaves as many
scratch files as it found, over any store, whichever steps fail.  A listing of a ZIP archive
creates one scratch file, and none if it cannot be created; a listing of a TAR archive
creates none.  An I/O error of a ZIP archive names the first step that fails, of creating,
copying and rewinding.  The listing at best effort is empty exactly where the listing fails
or has no member. -/
theorem scratch_files_released :
    (∀ (σ : Type) [Store σ] (start : ServiceState σ) (done : List Activity) (a : Activity),
      (a.after (afterAll start done)).scratch.live = (afterAll start done).scratch.live ∧
        (afterAll start done).scratch.live = start.scratch.live) ∧
    (∀ (x : Extractor) (s : Stream) (l : Ledger),
      let created := l.created + if x.scratch.createFailure = none then 1 else 0
      ((tryExtract x .zip s).run l).2.created = created ∧
        ((extract x .zip s).run l).2.created = created) ∧
    (∀ (x : Extractor) (compression : Compression) (s : Stream) (l : Ledger),
      ((tryExtract x (.tar compression) s).run l).2 = l ∧
        ((extract x (.tar compression) s).run l).2 = l) ∧
    (∀ (x : Extractor) (s : Stream) (l : Ledger) (stage : CopyStage) (reason : String),
      ((tryExtract x .zip s).run l).1 = .error (.io stage reason) ↔
        Archive.firstFailure? x.scratch s = some (stage, reason)) ∧
    ∀ (x : Extractor) (format : ArchiveFormat) (s : Stream) (l : Ledger),
      ((extract x format s).run l).1 = [] ↔
        (∃ e, ((tryExtract x format s).run l).1 = .error e) ∨
          ((tryExtract x format s).run l).1 = .ok [] := by
  refine ⟨?_, ?_, ?_, ?_, ?_⟩
  · intro σ _ start done a
    exact ⟨live_after _ a, live_afterAll start done⟩
  · intro x s l created
    rw [extract_ledger, tryExtract_ledger]
    have hcount : l.created + (if ArchiveFormat.zip = .zip ∧ x.scratch.createFailure = none then 1
        else 0) = created := by simp [created]
    exact ⟨hcount, hcount⟩
  · intro x compression s l
    rw [extract_ledger]
    exact ⟨rfl, rfl⟩
  · intro x s l stage reason
    exact tryExtract_zip_io_iff x s l
  · intro x format s l
    exact extract_eq_nil_iff x format s l

end ContentPreview
