import ContentPreview.Proofs.Service.Storing

/-!
# The turns of a sweep

A sweep counts while it goes on, and so its report is spread over its steps.  Here the
steps come first: `Service.turns` runs the same operations and only writes down what
became of each bitstream, and the report is a function of that record
(`report_sweep`).  What two sweeps report is then a question about two lists.

Over the store in memory a turn depends on the store through one bit, whether there is a
preview of the bitstream already (`reply`), and it changes that bit for its own bitstream
alone, from no to yes, if there is a preview to keep.

## Main definitions

* `Turn` — a bitstream and what became of it.
* `SweepReport.ofTurns` — the report on some turns.
* `Service.turns` — the turns of a sweep.
* `Service.reply` — what becomes of a bitstream, given whether a preview is stored.
* `DescribedAlike` — a list of bitstreams in which an identifier means one description.

## Main results

* `accounted_ofTurns` — each turn counts under one heading.
* `report_sweep`, `state_sweep` — a sweep and its turns.
* `ensure_reply`, `has_ensure` — one turn over the store in memory.
* `turns_of_missing` — the turns of different bitstreams, all of them missing.
* `shown?_sweep_of_mem`, `shown?_sweep_of_not_mem` — what is stored after a sweep of
  bitstreams that are described alike.
-/

namespace ContentPreview

/-- A turn of a sweep: a bitstream and what became of it. -/
structure Turn where
  bitstream : Bitstream
  answer : Except PreviewError Outcome

namespace Turn

/-- Whether a turn has the outcome. -/
def endsIn (outcome : Outcome) (t : Turn) : Bool := t.answer.toOption == some outcome

/-- The number of nodes that were stored, if a preview was. -/
def stored? (t : Turn) : Option Nat :=
  match t.answer with
  | .ok (.stored nodes) => some nodes
  | _ => none

/-- The failure that is to be reported, if there is one. -/
def failure? (t : Turn) : Option SweepFailure :=
  match t.answer with
  | .ok _ => none
  | .error e => some ⟨t.bitstream.id, e.message⟩

theorem endsIn_iff {t : Turn} {outcome ended : Outcome} (h : t.answer = .ok ended) :
    t.endsIn outcome = true ↔ ended = outcome := by
  unfold endsIn
  rw [h]
  simp [Except.toOption]

theorem failure?_of_ok {t : Turn} {outcome : Outcome} (h : t.answer = .ok outcome) :
    t.failure? = none := by
  unfold failure?
  rw [h]

/-- A turn stored something, had one of the other outcomes, or failed. -/
theorem counted_once (t : Turn) :
    (if t.stored?.isSome then 1 else 0) + (if t.endsIn .existing then 1 else 0) +
        (if t.endsIn .denied then 1 else 0) + (if t.endsIn .transient then 1 else 0) +
        (if t.endsIn .empty then 1 else 0) + t.failure?.toList.length = 1 := by
  obtain ⟨b, answer⟩ := t
  cases answer with
  | error e => rfl
  | ok outcome => cases outcome <;> rfl

/-- The number of nodes that some turns stored. -/
def nodesStored (ts : List Turn) : Nat := ts.foldr (fun t n => t.stored?.getD 0 + n) 0

theorem nodesStored_append (ts us : List Turn) :
    nodesStored (ts ++ us) = nodesStored ts + nodesStored us := by
  induction ts with
  | nil => exact (Nat.zero_add _).symm
  | cons t ts ih =>
      change t.stored?.getD 0 + nodesStored (ts ++ us) =
        t.stored?.getD 0 + nodesStored ts + nodesStored us
      rw [ih, Nat.add_assoc]

end Turn

/-! ## The report -/

namespace SweepReport

/-- The report on some turns. -/
def ofTurns (ts : List Turn) : SweepReport where
  processed := ts.length
  generated := ts.countP (·.stored?.isSome)
  nodesStored := Turn.nodesStored ts
  existing := ts.countP (Turn.endsIn .existing)
  denied := ts.countP (Turn.endsIn .denied)
  transient := ts.countP (Turn.endsIn .transient)
  empty := ts.countP (Turn.endsIn .empty)
  failures := ts.filterMap Turn.failure?

theorem ofTurns_append_singleton (ts : List Turn) (t : Turn) :
    ofTurns (ts ++ [t]) = (ofTurns ts).note t.bitstream t.answer := by
  obtain ⟨b, answer⟩ := t
  unfold ofTurns
  simp only [List.length_append, List.countP_append, List.filterMap_append,
    Turn.nodesStored_append]
  cases answer with
  | error e => rfl
  | ok outcome =>
      have hfine : [(⟨b, .ok outcome⟩ : Turn)].filterMap Turn.failure? = [] := rfl
      rw [hfine, List.append_nil]
      cases outcome <;> rfl

/-- Each turn counts under exactly one heading. -/
theorem accounted_ofTurns (ts : List Turn) :
    (ofTurns ts).generated + (ofTurns ts).existing + (ofTurns ts).denied +
        (ofTurns ts).transient + (ofTurns ts).empty + (ofTurns ts).failures.length =
      (ofTurns ts).processed := by
  unfold ofTurns
  dsimp only
  induction ts with
  | nil => rfl
  | cons t ts ih =>
      have hfailures : ((t :: ts).filterMap Turn.failure?).length =
          t.failure?.toList.length + (ts.filterMap Turn.failure?).length := by
        rw [List.filterMap_cons]
        cases t.failure? with
        | none => exact (Nat.zero_add _).symm
        | some f => exact Nat.add_comm _ 1
      have hone := t.counted_once
      simp only [List.countP_cons, List.length_cons, hfailures] at ih ⊢
      omega

end SweepReport

namespace Service

section

variable {σ : Type} [Store σ]

/-- The turns of a sweep. -/
def turns (svc : Service) (source : Source) :
    List Bitstream → StateM (ServiceState σ) (List Turn)
  | [] => return []
  | b :: rest => do
    let answer ← (svc.ensure source b).run
    return ⟨b, answer⟩ :: (← turns svc source rest)

variable (svc : Service) (source : Source) (s : ServiceState σ)

theorem turns_cons (b : Bitstream) (rest : List Bitstream) :
    (svc.turns source (b :: rest)).run s =
      (⟨b, ((svc.ensure source b).run.run s).1⟩ ::
          ((svc.turns source rest).run ((svc.ensure source b).run.run s).2).1,
        ((svc.turns source rest).run ((svc.ensure source b).run.run s).2).2) := rfl

theorem sweepFrom_eq_turns (bs : List Bitstream) (done : List Turn) (sent : List SweepProgress) :
    ((svc.sweepFrom source bs (.ofTurns done) sent).run s).1.1 =
        .ofTurns (done ++ ((svc.turns source bs).run s).1) ∧
      ((svc.sweepFrom source bs (.ofTurns done) sent).run s).2 =
        ((svc.turns source bs).run s).2 := by
  induction bs generalizing done sent s with
  | nil =>
      change SweepReport.ofTurns done = .ofTurns (done ++ []) ∧ s = s
      rw [List.append_nil]
      exact ⟨rfl, rfl⟩
  | cons b rest ih =>
      rw [sweepFrom_cons, turns_cons, List.append_cons done,
        ← SweepReport.ofTurns_append_singleton done ⟨b, ((svc.ensure source b).run.run s).1⟩]
      exact ih _ _ _

/-- A sweep reports its turns. -/
theorem report_sweep (bs : List Bitstream) :
    ((svc.sweep source bs).run s).1.1 = .ofTurns ((svc.turns source bs).run s).1 :=
  (sweepFrom_eq_turns svc source s bs [] []).1

theorem state_sweep (bs : List Bitstream) :
    ((svc.sweep source bs).run s).2 = ((svc.turns source bs).run s).2 :=
  (sweepFrom_eq_turns svc source s bs [] []).2

end

/-! ## One turn over the store in memory -/

section Memory

variable (svc : Service) (source : Source) (b : Bitstream) (s : ServiceState Memory)

/-- What becomes of a bitstream, given whether a preview of it is stored. -/
def reply (stored : Bool) : Except PreviewError Outcome :=
  if svc.canPreview b then
    if stored then .ok .existing else svc.verdict source b
  else .ok .denied

section

variable {svc source b}

theorem reply_of_denied (hgate : svc.canPreview b = false) (stored : Bool) :
    svc.reply source b stored = .ok .denied := if_neg (by simp [hgate])

theorem reply_true (hgate : svc.canPreview b = true) : svc.reply source b true = .ok .existing :=
  if_pos hgate

theorem reply_false (hgate : svc.canPreview b = true) :
    svc.reply source b false = svc.verdict source b := by
  unfold reply
  rw [if_pos hgate, if_neg Bool.false_ne_true]

end

theorem ensure_reply :
    ((svc.ensure source b).run.run s).1 = svc.reply source b (s.store.has b.id) := by
  cases hgate : svc.canPreview b with
  | false => rw [ensure_of_denied svc source b s hgate, reply_of_denied hgate]
  | true =>
      cases hshown : s.store.shown? b.id with
      | some roots =>
          rw [ensure_of_shown svc source b s hgate hshown, Memory.has_of_shown hshown,
            reply_true hgate]
      | none =>
          have hhas := s.store.shown?_eq_none.1 hshown
          obtain ⟨opens, ledger, hrun⟩ := ensure_of_missing svc source b s hgate hhas
          rw [hrun, hhas, reply_false hgate]

/-- A turn changes what is stored under its own identifier alone. -/
theorem has_ensure (i : BitstreamId) :
    ((svc.ensure source b).run.run s).2.store.has i =
      (s.store.has i || (decide (b.id = i) && (svc.keepable? source b).isSome)) := by
  rw [Memory.has_eq_isSome_shown?, Memory.has_eq_isSome_shown?, ensure_store,
    Memory.shown?_fill _ fun roots => keepable?_ne_nil, Option.isSome_or]
  by_cases hid : b.id = i <;> simp [hid]

/-- Over a store without their previews, the turns of bitstreams with different identifiers
do not touch each other. -/
theorem turns_of_missing {bs : List Bitstream} (hids : (bs.map Bitstream.id).Nodup)
    (hmissing : ∀ b ∈ bs, s.store.has b.id = false) :
    ((svc.turns source bs).run s).1 = bs.map fun b => ⟨b, svc.reply source b false⟩ := by
  induction bs generalizing s with
  | nil => rfl
  | cons b rest ih =>
      obtain ⟨hnew, hrest⟩ := List.nodup_cons.1 hids
      have hstill : ∀ c ∈ rest, ((svc.ensure source b).run.run s).2.store.has c.id = false := by
        intro c hc
        have hne : b.id ≠ c.id := fun heq => hnew (heq ▸ List.mem_map_of_mem hc)
        rw [has_ensure, hmissing c (List.mem_cons_of_mem b hc), decide_eq_false hne]
        rfl
      rw [turns_cons, List.map_cons]
      dsimp only
      rw [ih _ hrest hstill, ensure_reply, hmissing b List.mem_cons_self]

end Memory

end Service

/-! ## Bitstreams that are described alike -/

/-- In a list of bitstreams that are described alike, an identifier means one
description. -/
def DescribedAlike (bs : List Bitstream) : Prop := ∀ b ∈ bs, ∀ c ∈ bs, b.id = c.id → b = c

theorem DescribedAlike.of_cons {b : Bitstream} {rest : List Bitstream}
    (h : DescribedAlike (b :: rest)) : DescribedAlike rest :=
  fun c hc d hd => h c (List.mem_cons_of_mem b hc) d (List.mem_cons_of_mem b hd)

theorem DescribedAlike.perm {bs cs : List Bitstream} (h : DescribedAlike bs)
    (hperm : bs.Perm cs) : DescribedAlike cs :=
  fun b hb c hc => h b (hperm.mem_iff.2 hb) c (hperm.mem_iff.2 hc)

namespace Service

section Alike

variable (svc : Service) (source : Source) (s : ServiceState Memory) {bs : List Bitstream}
  {b : Bitstream} {i : BitstreamId}

theorem shown?_sweep_of_mem (h : DescribedAlike bs) (hb : b ∈ bs) :
    ((svc.sweep source bs).run s).2.store.shown? b.id =
      (s.store.shown? b.id).or (svc.keepable? source b) := by
  rw [shown?_sweep]
  congr 1
  cases hfound : bs.findSome? fun c => if c.id = b.id then svc.keepable? source c else none with
  | none =>
      have hb' := List.findSome?_eq_none_iff.1 hfound b hb
      rw [if_pos rfl] at hb'
      exact hb'.symm
  | some roots =>
      obtain ⟨c, hc, hroots⟩ := List.exists_of_findSome?_eq_some hfound
      by_cases hid : c.id = b.id
      · rw [if_pos hid, h c hc b hb hid] at hroots
        exact hroots.symm
      · rw [if_neg hid] at hroots
        cases hroots

theorem shown?_sweep_of_not_mem (h : ∀ b ∈ bs, b.id ≠ i) :
    ((svc.sweep source bs).run s).2.store.shown? i = s.store.shown? i := by
  have hnone : bs.findSome? (fun b => if b.id = i then svc.keepable? source b else none) = none :=
    List.findSome?_eq_none_iff.2 fun b hb => if_neg (h b hb)
  rw [shown?_sweep, hnone, Option.or_none]

end Alike

end Service

end ContentPreview
