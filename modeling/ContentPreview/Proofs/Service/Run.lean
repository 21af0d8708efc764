import ContentPreview.Proofs.Loop
import ContentPreview.Proofs.Service.Effect

/-!
# Runs of a service

A run is a list of calls over one store.  Each call brings its own
caller: the policy, the settings, the readers of archives and the scratch space may
differ from one call to the next, and so may what the source holds.  The history of a
run pairs each call with its answer.

What a call does to the stored preview of an identifier is told by two things: the
preview that it would store there, which is known before it is performed
(`Call.keeps?`), and whether it was answered as a removal (`Call.Removes`).

## Main definitions

* `Request`, `Answer`, `Call` — what can be asked of a service, and what is
  answered.
* `Call.perform`, `performAll` — the step of a run, and a run with its history.
* `fresh` — the state at the start.

## Main results

* `shown?_perform` — the stored preview after a call that is no removal.
* `shown?_perform_removal` — nothing is stored after a removal.
-/

namespace ContentPreview

/-- What can be asked of a service. -/
inductive Request where
  /-- The preview to show on a page, made from a source if need be. -/
  | page (source : Source) (b : Bitstream)
  /-- Make sure that a preview of a bitstream is stored. -/
  | ensure (source : Source) (b : Bitstream)
  | stored (i : BitstreamId)
  /-- The preview of a stream; nothing is stored. -/
  | generate (b : Bitstream) (s : Stream)
  | delete (i : BitstreamId)
  | sweep (source : Source) (bs : List Bitstream)

/-- What a service answers. -/
inductive Answer where
  | preview (answer : Except PreviewError (List View))
  | outcome (answer : Except PreviewError Outcome)
  /-- The answer to a deletion is the number of nodes. -/
  | removed (answer : Except PreviewError Nat)
  | report (report : SweepReport) (sent : List SweepProgress)

/-- A request with the service through which it is made. -/
structure Call where
  service : Service
  request : Request

/-- The state of a service at the start, over an empty store. -/
def fresh : ServiceState Memory := { store := {} }

namespace Call

/-- Performs a call, over any store. -/
def perform {σ : Type} [Store σ] (c : Call) : StateM (ServiceState σ) Answer :=
  match c.request with
  | .page source b => .preview <$> (c.service.getOrGenerate source b).run
  | .ensure source b => .outcome <$> (c.service.ensure source b).run
  | .stored i => .preview <$> (Service.storedPreview i).run
  | .generate b s => .preview <$> (Service.onScratch (c.service.generate b s)).run
  | .delete i => .removed <$> (c.service.delete i).run
  | .sweep source bs => (fun (report, sent) => .report report sent) <$> c.service.sweep source bs

/-- The preview that a call stores under an identifier if nothing is stored there. -/
def keeps? (c : Call) (i : BitstreamId) : Option (List View) :=
  match c.request with
  | .page source b =>
    if b.id = i ∧ c.service.config.generateOnPageLoad then c.service.keepable? source b else none
  | .ensure source b => if b.id = i then c.service.keepable? source b else none
  | .sweep source bs =>
    bs.findSome? fun b => if b.id = i then c.service.keepable? source b else none
  | .stored _ | .generate _ _ | .delete _ => none

/-- Whether a call with its answer is a successful deletion of an identifier. -/
def Removes (c : Call) (answer : Answer) (i : BitstreamId) : Prop :=
  c.request = .delete i ∧ ∃ nodes, answer = .removed (.ok nodes)

end Call

/-- Performs calls one after the other and notes the answer to each. -/
def performAll {σ : Type} [Store σ] : List Call → StateM (ServiceState σ) (List (Call × Answer)) :=
  historyOf Call.perform

theorem performAll_cons (c : Call) (rest : List Call) (s : ServiceState Memory) :
    (performAll (c :: rest)).run s =
      ((c, (c.perform.run s).1) :: ((performAll rest).run (c.perform.run s).2).1,
        ((performAll rest).run (c.perform.run s).2).2) := rfl

theorem performAll_append (xs ys : List Call) (s : ServiceState Memory) :
    ((performAll (xs ++ ys)).run s).2 =
      ((performAll ys).run ((performAll xs).run s).2).2 := historyOf_append xs ys s

/-- An entry of a history is a call with its answer at its turn. -/
theorem exists_of_mem_history {calls : List Call} {s : ServiceState Memory} {e : Call × Answer}
    (h : e ∈ ((performAll calls).run s).1) :
    ∃ before later, calls = before ++ e.1 :: later ∧
      e.2 = (e.1.perform.run ((performAll before).run s).2).1 := exists_of_mem_historyOf h

/-! ## One call -/

section Step

variable {c : Call} {s : ServiceState Memory} {i : BitstreamId}

/-- After a removal nothing is stored. -/
theorem shown?_perform_removal (h : c.Removes (c.perform.run s).1 i) :
    (c.perform.run s).2.store.shown? i = none := by
  obtain ⟨svc, request⟩ := c
  obtain ⟨hrequest, nodes, hanswer⟩ := h
  subst hrequest
  unfold Call.perform at hanswer ⊢
  rw [run_map] at hanswer ⊢
  cases hadmin : svc.gate.isAdmin with
  | false =>
      rw [Service.delete_of_not_admin svc i s hadmin] at hanswer
      cases hanswer
  | true =>
      rw [Service.delete_of_admin svc i s hadmin]
      exact (s.store.shown?_erase i i).trans (if_pos rfl)

/-- After any other call the stored preview is the one from before, or else the one
that the call stores. -/
theorem shown?_perform (h : ¬ c.Removes (c.perform.run s).1 i) :
    (c.perform.run s).2.store.shown? i = (s.store.shown? i).or (c.keeps? i) := by
  obtain ⟨svc, request⟩ := c
  unfold Call.perform at h ⊢
  unfold Call.keeps?
  cases request with
  | page source b =>
      dsimp only
      rw [run_map, Service.getOrGenerate_store]
      cases svc.config.generateOnPageLoad with
      | false => simp [Memory.fill_none]
      | true =>
          rw [if_pos rfl, s.store.shown?_fill fun roots => Service.keepable?_ne_nil]
          simp
  | ensure source b =>
      dsimp only
      rw [run_map, Service.ensure_store]
      exact s.store.shown?_fill (fun roots => Service.keepable?_ne_nil) i
  | stored j =>
      dsimp only
      rw [run_map, Service.storedPreview_run, Option.or_none]
  | generate b stream =>
      dsimp only
      rw [run_map, Service.onScratch_run, Option.or_none]
  | delete j =>
      dsimp only at h ⊢
      rw [run_map] at h ⊢
      cases hadmin : svc.gate.isAdmin with
      | false => rw [Service.delete_of_not_admin svc j s hadmin, Option.or_none]
      | true =>
          rw [Service.delete_of_admin svc j s hadmin] at h ⊢
          have hne : i ≠ j := by
            rintro rfl
            exact h ⟨rfl, _, rfl⟩
          rw [s.store.shown?_erase, if_neg hne, Option.or_none]
  | sweep source bs =>
      dsimp only
      rw [run_map, Service.sweep_store, Service.shown?_foldl_fill]

end Step

end ContentPreview
