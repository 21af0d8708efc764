import ContentPreview.Proofs.Service.Continuing
import ContentPreview.Proofs.Service.Turns
import Mathlib.Data.List.Induction

/-!
# What a sweep reports

Over any store, one whose operations fail included.  A turn that fails is a turn like any
other: it may have changed the state, it is noted, and the next one starts from where it
ended.  So a sweep gives every bitstream its turn, and what each of them meets is known
without the sweep, from the bitstreams in front of it.

The report is a function of these turns.  Each counts under one heading, so the numbers add
up, and the failures are those of the turns that failed, in their order.  The messages that
are sent on the way are reports on shorter sweeps.

## Main definitions

* `Service.stateAfter` — the state after some bitstreams had their turns.
* `Service.turnAt` — the turn of the bitstream at a position.
* `Service.snapshot` — the message about a sweep, given the bitstream it ended with.

## Main results

* `turns_run` — the turns of a sweep, one by one, and the state behind them.
* `processed_sweep` — every bitstream is visited.
* `report_partitions_turns` — what the report of a sweep says.
* `length_sent_sweep`, `getElem?_sent_sweep` — the number of messages, and the message at
  a place.
* `progress_snapshots` — all messages of a sweep.
-/

namespace ContentPreview.Service

section Report

variable {σ : Type} [Store σ]

/-- The state after each of the bitstreams had its turn. -/
def stateAfter (svc : Service) (source : Source) (s : ServiceState σ) (bs : List Bitstream) :
    ServiceState σ :=
  bs.foldl (fun s b => ((svc.ensure source b).run.run s).2) s

/-- The turn of the bitstream at a position, in the state that those in front of it leave. -/
def turnAt (svc : Service) (source : Source) (s : ServiceState σ) (bs : List Bitstream)
    (i : Fin bs.length) : Turn :=
  ⟨bs[i], ((svc.ensure source bs[i]).run.run (svc.stateAfter source s (bs.take i))).1⟩

variable (svc : Service) (source : Source) (s : ServiceState σ)

/-- The turns of a sweep are those at its positions. -/
theorem turns_run (bs : List Bitstream) :
    (svc.turns source bs).run s =
      (List.ofFn (svc.turnAt source s bs), svc.stateAfter source s bs) := by
  induction bs generalizing s with
  | nil => rfl
  | cons b rest ih =>
      rw [turns_cons, ih, List.ofFn_succ]
      rfl

theorem report_sweep_ofFn (bs : List Bitstream) :
    ((svc.sweep source bs).run s).1.1 = .ofTurns (List.ofFn (svc.turnAt source s bs)) := by
  rw [report_sweep, turns_run]

theorem processed_sweep (bs : List Bitstream) :
    ((svc.sweep source bs).run s).1.1.processed = bs.length := by
  rw [report_sweep_ofFn]
  exact List.length_ofFn

/-- **A report partitions the work.**  Over any store, a sweep visits every bitstream of its
list and gives each its turn, in their order and in the state that those in front of it
leave behind, failures included.  Each bitstream counts under one heading, that of its
outcome, and the failures are those of the turns that ended in an error, in their order,
each with the identifier and the wording of the error. -/
theorem report_partitions_turns (bs : List Bitstream) :
    let swept := (svc.sweep source bs).run s
    let report := swept.1.1
    let turns := List.ofFn (svc.turnAt source s bs)
    report.processed = bs.length ∧
      report.processed = report.generated + report.existing + report.denied +
        report.transient + report.empty + report.failures.length ∧
      report.generated = turns.countP (·.stored?.isSome) ∧
      report.existing = turns.countP (Turn.endsIn .existing) ∧
      report.denied = turns.countP (Turn.endsIn .denied) ∧
      report.transient = turns.countP (Turn.endsIn .transient) ∧
      report.empty = turns.countP (Turn.endsIn .empty) ∧
      report.failures = turns.filterMap Turn.failure? ∧
      swept.2 = svc.stateAfter source s bs := by
  intro swept report turns
  have hreport : report = .ofTurns turns := report_sweep_ofFn svc source s bs
  have hstate : swept.2 = svc.stateAfter source s bs := by
    rw [state_sweep, turns_run]
  have hsum := SweepReport.accounted_ofTurns turns
  rw [← hreport] at hsum
  refine ⟨processed_sweep svc source s bs, hsum.symm, ?_⟩
  rw [hreport]
  exact ⟨rfl, rfl, rfl, rfl, rfl, rfl, hstate⟩

/-- A store whose first call fails: the bitstream of that turn is reported, and the sweep goes
on to the same bitstream in its second place. -/
example :
    let svc : Service := ⟨{}, .unrestricted, {}⟩
    let source := Source.ofStreams [("t", .ofBytes [0x68, 0x69])]
    let text : Bitstream := ⟨"t", some "t.txt", "text/plain", 1⟩
    let s : ServiceState Unreliable :=
      { store := { faults := { fails := fun _ call => call == 0 } } }
    ((svc.sweep source [text, text]).run s).1.1 =
      { processed := 2, generated := 1, nodesStored := 1
        failures := [⟨"t", "Preview store error: has_preview failed"⟩] } := by
  decide +kernel

end Report

/-! ## Messages

A message is due whenever the number of bitstreams that were visited reaches a multiple of
the interval, and it is read off the report by then, the current bitstream counted.  A sweep
begins with the messages of each shorter one, and a sweep over a multiple of the interval
ends in a message.  So the message at a place is the last one of the shorter sweep that
ends there, and all that a message says is what that sweep reports.
-/

section Messages

variable {σ : Type} [Store σ] (svc : Service) (source : Source) (s : ServiceState σ)

/-- The message about a sweep over the bitstreams, the last of which is `b`. -/
def snapshot (bs : List Bitstream) (b : Bitstream) : SweepProgress :=
  let report := ((svc.sweep source bs).run s).1.1
  ⟨bs.length, report.generated, report.failures.length, b.id⟩

/-- A message is due at the multiples of the interval. -/
theorem message?_sweep (bs : List Bitstream) (b : Bitstream) :
    ((svc.sweep source bs).run s).1.1.message? b =
      if progressInterval ∣ bs.length then some (svc.snapshot source s bs b) else none := by
  unfold SweepReport.message? snapshot
  rw [processed_sweep]
  simp only [Nat.dvd_iff_mod_eq_zero]

theorem length_sent_sweep (bs : List Bitstream) :
    ((svc.sweep source bs).run s).1.2.length = bs.length / progressInterval := by
  induction bs using List.reverseRecOn with
  | nil => exact (Nat.zero_div _).symm
  | append_singleton front b ih =>
      rw [sent_sweep_concat, message?_sweep, List.length_append, ih, List.length_append,
        List.length_singleton, Nat.succ_div]
      split <;> rfl

/-- A sweep over a multiple of the interval ends in a message. -/
theorem getElem?_sent_sweep_concat (front : List Bitstream) (b : Bitstream) {k : Nat}
    (hk : front.length + 1 = progressInterval * (k + 1)) :
    ((svc.sweep source (front ++ [b])).run s).1.2[k]? =
      some (svc.snapshot source s (front ++ [b]) b) := by
  have hdue : progressInterval ∣ (front ++ [b]).length := by
    rw [List.length_append, List.length_singleton, hk]
    exact Nat.dvd_mul_right _ _
  have hbefore : ((svc.sweep source front).run s).1.2.length = k := by
    have hpos : 0 < progressInterval := by decide
    rw [Nat.mul_succ] at hk
    rw [length_sent_sweep]
    apply Nat.div_eq_of_lt_le
    · rw [Nat.mul_comm]
      omega
    · rw [Nat.mul_comm, Nat.mul_succ]
      omega
  rw [sent_sweep_concat, message?_sweep, if_pos hdue, ← hbefore]
  exact List.getElem?_concat_length

/-- The message at a place is the last one of the shorter sweep that ends there. -/
theorem getElem?_sent_sweep (bs : List Bitstream) {i k : Nat} (hi : i < bs.length)
    (hk : i + 1 = progressInterval * (k + 1)) :
    ((svc.sweep source bs).run s).1.2[k]? =
      some (svc.snapshot source s (bs.take (i + 1)) bs[i]) := by
  have hsplit : bs.take i ++ [bs[i]] = bs.take (i + 1) := List.take_append_getElem hi
  have hlength : (bs.take i).length + 1 = progressInterval * (k + 1) := by
    rw [List.length_take, Nat.min_eq_left (Nat.le_of_lt hi)]
    exact hk
  have hlast := getElem?_sent_sweep_concat svc source s (bs.take i) bs[i] hlength
  rw [hsplit] at hlast
  obtain ⟨more, hmore⟩ := (prefix_sweep svc source (bs.take (i + 1)) (bs.drop (i + 1)) s).2
  rw [List.take_append_drop] at hmore
  obtain ⟨hplace, -⟩ := List.getElem?_eq_some_iff.1 hlast
  rw [← hmore, List.getElem?_append_left hplace]
  exact hlast

/-- **Messages are snapshots of shorter sweeps.**  Over any store, a sweep sends one message
for each hundred bitstreams.  The message at a place counts the hundreds up to there, names
the last bitstream of them, and has the numbers of the report of a sweep over just these
bitstreams from the same state: what was generated, and how many failed. -/
theorem progress_snapshots (bs : List Bitstream) :
    ((svc.sweep source bs).run s).1.2 =
      List.ofFn fun k : Fin (bs.length / 100) =>
        let report := ((svc.sweep source (bs.take (100 * (k + 1)))).run s).1.1
        { processed := 100 * (k + 1)
          generated := report.generated
          failed := report.failures.length
          current := (bs.get ⟨100 * k + 99, by omega⟩).id } := by
  apply List.ext_getElem?
  intro k
  rw [List.getElem?_ofFn]
  by_cases hk : k < bs.length / 100
  · have hlast : 100 * k + 99 < bs.length := by omega
    have hend : 100 * k + 99 + 1 = progressInterval * (k + 1) := by
      show 100 * k + 99 + 1 = 100 * (k + 1)
      omega
    have hlength : (bs.take (100 * k + 99 + 1)).length = 100 * (k + 1) := by
      rw [List.length_take]
      omega
    rw [dif_pos hk, getElem?_sent_sweep svc source s bs hlast hend]
    unfold snapshot
    rw [hlength]
    rfl
  · rw [dif_neg hk]
    apply List.getElem?_eq_none
    rw [length_sent_sweep]
    exact Nat.not_lt.1 hk

end Messages

end ContentPreview.Service
