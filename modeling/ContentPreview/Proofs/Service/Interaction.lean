import ContentPreview.Proofs.Service.Effect
import ContentPreview.Proofs.Service.Run

/-!
# Interactions with a service over any store

An operation of a service is put together from few parts: operations of the store,
opening content, and making the preview of a stream.  What holds of these, and is kept
when one computation follows another, holds of every operation.  So a property of all
that a service does is shown for the parts alone (`Compositional`), and the shape of the
operations is looked at only here.

Beside the calls there is one thing more that can be asked of a service, the address of a
bitstream, for which no store is needed.  Whatever is asked is put together from the same
parts, so a property of the parts is one of every run.

## Main definitions

* `Service.Compositional` — a property of computations that the parts have and that is
  kept when one computation follows another.
* `Interaction`, `Response` — what can be asked, and what is answered.
* `Interaction.perform`, `performEach` — the step of a run, and a run with its history.
* `DependsOnStore` — the answer and the store afterwards depend on the store alone.

## Main results

* `Compositional.getOrGenerate`, `Compositional.ensure`, `Compositional.storedPreview`,
  `Compositional.delete`, `Compositional.sweepFrom` — every operation has it.
* `Compositional.perform` — what holds of the parts of the operations holds of all that
  can be asked.
* `dependsOnStore_perform` — all that can be asked depends on the store alone.
-/

namespace ContentPreview.Service

/-! ## Operations from their parts -/

variable {σ : Type}

/-- A property of computations over a store that the parts of the operations have, and
that is kept when one computation follows another. -/
structure Compositional (P : ∀ {α : Type}, StateM (ServiceState σ) α → Prop) : Prop where
  pure : ∀ {α : Type} (a : α), P (Pure.pure a : StateM (ServiceState σ) α)
  bind : ∀ {α β : Type} {x : StateM (ServiceState σ) α} {next : α → StateM (ServiceState σ) β},
    P x → (∀ a, P (next a)) → P (x >>= next)
  onStore : ∀ {α : Type} (action : StoreM σ α), P (Service.onStore action).run
  openContent : ∀ (source : Source) (b : Bitstream),
    P (Service.openContent source b : ServiceM σ (Option Stream)).run
  generate : ∀ (svc : Service) (b : Bitstream) (stream : Stream),
    P (onScratch (svc.generate b stream) : ServiceM σ (List View)).run

namespace Compositional

variable {P : ∀ {α : Type}, StateM (ServiceState σ) α → Prop} {α β : Type}

section

variable (h : Compositional P)
include h

theorem map {x : StateM (ServiceState σ) α} (hx : P x) (f : α → β) : P (f <$> x) :=
  h.bind hx fun a => h.pure (f a)

theorem ok (a : α) : P (Pure.pure a : ServiceM σ α).run :=
  h.pure (Except.ok a : Except PreviewError α)

theorem failed (e : PreviewError) : P (throw e : ServiceM σ α).run :=
  h.pure (Except.error e : Except PreviewError α)

/-- What follows a failure does not take place. -/
theorem andThen {x : ServiceM σ α} {next : α → ServiceM σ β} (hx : P x.run)
    (hnext : ∀ a, P (next a).run) : P (x >>= next).run := by
  rw [ExceptT.run_bind]
  refine h.bind hx fun answer => ?_
  cases answer with
  | ok a => exact hnext a
  | error e => exact h.pure _

end

theorem ite {c : Prop} [Decidable c] {x y : ServiceM σ α} (hx : P x.run) (hy : P y.run) :
    P (if c then x else y).run := by
  by_cases hc : c
  · rwa [if_pos hc]
  · rwa [if_neg hc]

variable (h : Compositional P) (svc : Service) (source : Source) (b : Bitstream)
  (i : BitstreamId) (roots : List View)
include h

theorem generateFrom : P (svc.generateFrom source b : ServiceM σ (List View)).run := by
  unfold Service.generateFrom
  refine ite (h.ok _) (h.andThen (h.openContent source b) fun content => ?_)
  cases content with
  | some stream => exact h.generate svc b stream
  | none => exact h.ok _

variable [Store σ]

theorem storedPreview : P (Service.storedPreview i : ServiceM σ (List View)).run := by
  unfold Service.storedPreview
  exact h.andThen (h.onStore _) fun _ => h.ok _

theorem persist : P (Service.persist i roots : ServiceM σ InsertOutcome).run := by
  unfold Service.persist
  exact h.andThen (h.onStore _) fun _ => h.onStore _

theorem getOrGenerate : P (svc.getOrGenerate source b : ServiceM σ (List View)).run := by
  unfold Service.getOrGenerate
  refine ite (h.ok _) (h.andThen (h.onStore _) fun has => ?_)
  refine ite (h.storedPreview b.id) (ite (h.ok _) ?_)
  refine h.andThen (h.generateFrom svc source b) fun roots => ?_
  refine ite (h.ok _) (h.andThen (h.persist b.id roots) fun outcome => ?_)
  cases outcome <;> exact h.ok _

theorem ensure : P (svc.ensure source b : ServiceM σ Outcome).run := by
  unfold Service.ensure
  refine ite (h.ok _) (h.andThen (h.onStore _) fun has => ?_)
  refine ite (h.ok _) (ite (h.ok _) (ite (h.ok _) ?_))
  refine h.andThen (h.generateFrom svc source b) fun roots => ?_
  refine ite (h.ok _) (h.andThen (h.persist b.id roots) fun outcome => ?_)
  cases outcome <;> exact h.ok _

theorem delete : P (svc.delete i : ServiceM σ Nat).run := by
  unfold Service.delete
  exact ite (h.andThen (h.failed _) fun _ => h.onStore _) (h.onStore _)

theorem sweepFrom (bs : List Bitstream) (report : SweepReport) (sent : List SweepProgress) :
    P (svc.sweepFrom source bs report sent : StateM (ServiceState σ) _) := by
  induction bs generalizing report sent with
  | nil => exact h.pure _
  | cons b rest ih => exact h.bind (h.ensure svc source b) fun _ => ih _ _

end Compositional

end ContentPreview.Service

namespace ContentPreview

/-! ## What can be asked -/

/-- What can be asked of a service: a call, or the address of a bitstream. -/
inductive Interaction where
  | call (c : Call)
  | address (svc : Service) (item : Option ItemRef) (b : Bitstream) (base : String)

/-- What is answered. -/
inductive Response where
  | answer (answer : Answer)
  | address (url : String)

/-- Performs what is asked. -/
def Interaction.perform {σ : Type} [Store σ] : Interaction → StateM (ServiceState σ) Response
  | .call c => .answer <$> c.perform
  | .address svc item b base => return .address (svc.url item b base)

/-- Performs one thing after the other and notes the response to each. -/
def performEach {σ : Type} [Store σ] :
    List Interaction → StateM (ServiceState σ) (List (Interaction × Response)) :=
  historyOf Interaction.perform

theorem performEach_cons {σ : Type} [Store σ] (a : Interaction) (rest : List Interaction)
    (s : ServiceState σ) :
    (performEach (a :: rest)).run s =
      ((a, (a.perform.run s).1) :: ((performEach rest).run (a.perform.run s).2).1,
        ((performEach rest).run (a.perform.run s).2).2) := rfl

section

variable {σ : Type} [Store σ] {P : ∀ {α : Type}, StateM (ServiceState σ) α → Prop}

theorem Service.Compositional.call (h : Service.Compositional P) (c : Call) :
    P (c.perform : StateM (ServiceState σ) Answer) := by
  obtain ⟨svc, request⟩ := c
  unfold Call.perform
  cases request with
  | page source b => exact h.map (h.getOrGenerate svc source b) _
  | ensure source b => exact h.map (h.ensure svc source b) _
  | stored i => exact h.map (h.storedPreview i) _
  | generate b stream => exact h.map (h.generate svc b stream) _
  | delete i => exact h.map (h.delete svc i) _
  | sweep source bs => exact h.map (h.sweepFrom svc source bs {} []) _

/-- What holds of the parts of the operations holds of all that can be asked. -/
theorem Service.Compositional.perform (h : Service.Compositional P) (a : Interaction) :
    P (a.perform : StateM (ServiceState σ) Response) := by
  cases a with
  | call c => exact h.map (h.call c) _
  | address svc item b base => exact h.pure _

end

/-! ## The store alone

The counter of opened contents and the ledger of scratch files grow with every attempt.
No answer shows them and nothing that is stored depends on them, so a run can be followed
in its store alone.
-/

section

variable {σ α : Type}

/-- The answer and the store afterwards depend on the store alone. -/
def DependsOnStore (action : StateM (ServiceState σ) α) : Prop :=
  ∀ s t : ServiceState σ, t.store = s.store →
    (action.run t).1 = (action.run s).1 ∧ (action.run t).2.store = (action.run s).2.store

theorem dependsOnStore_compositional :
    Service.Compositional (σ := σ) (fun action => DependsOnStore action) where
  pure a := fun _ _ hstore => ⟨rfl, hstore⟩
  bind := by
    intro α β x next hx hnext s t hstore
    obtain ⟨hanswer, hafter⟩ := hx s t hstore
    rw [StateT.run_bind, StateT.run_bind]
    change ((next (x.run t).1).run (x.run t).2).1 = ((next (x.run s).1).run (x.run s).2).1 ∧
      ((next (x.run t).1).run (x.run t).2).2.store = ((next (x.run s).1).run (x.run s).2).2.store
    rw [hanswer]
    exact hnext (x.run s).1 (x.run s).2 (x.run t).2 hafter
  onStore action := by
    intro s t hstore
    rw [Service.onStore_run, Service.onStore_run, hstore]
    exact ⟨rfl, rfl⟩
  openContent source b := fun _ _ hstore => ⟨rfl, hstore⟩
  generate svc b stream := by
    intro s t hstore
    rw [Service.onScratch_run, Service.onScratch_run,
      Service.generate_answer stream t.scratch s.scratch]
    exact ⟨rfl, hstore⟩

theorem dependsOnStore_perform [Store σ] (a : Interaction) :
    DependsOnStore (a.perform : StateM (ServiceState σ) Response) :=
  dependsOnStore_compositional.perform a

end

end ContentPreview
