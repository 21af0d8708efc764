import ContentPreview.Proofs.Service.Turns

/-!
# The order of a sweep

A sweep over bitstreams that are described alike comes to the same in any order, up to
the identities of the nodes and the order of the failures.

Identities depend on what was stored before, so stores in which the same sweep ends in
another order are not equal, nor do they become equal if one goes on from there.  What
a turn depends on is which bitstreams have a preview (`Memory.has`), and in this the
stores agree.  Two turns next to each other can be exchanged: if they are about the same
identifier they are the same turn, and otherwise neither changes what the other
depends on.

## Main results

* `turns_congr` — stores with previews of the same bitstreams have the same turns.
* `turns_perm` — the turns of a sweep in another order.
* `sweep_perm` — the reports and the stores of sweeps in any two orders.
-/

namespace ContentPreview

theorem Turn.nodesStored_perm {ts us : List Turn} (h : ts.Perm us) :
    nodesStored ts = nodesStored us :=
  h.foldr_eq' (fun t _ u _ n => by omega) 0

theorem SweepReport.ofTurns_perm {ts us : List Turn} (h : ts.Perm us) :
    ofTurns us = { ofTurns ts with failures := (ofTurns us).failures } ∧
      (ofTurns ts).failures.Perm (ofTurns us).failures := by
  refine ⟨?_, h.filterMap Turn.failure?⟩
  unfold ofTurns
  rw [h.length_eq, h.countP_eq, h.countP_eq, h.countP_eq, h.countP_eq, h.countP_eq,
    Turn.nodesStored_perm h]

namespace Service

section

variable (svc : Service) (source : Source) {bs cs : List Bitstream}
  {s t : ServiceState Memory}

/-- A turn keeps stores alike that have previews of the same bitstreams. -/
theorem has_ensure_congr (b : Bitstream) (h : ∀ i, s.store.has i = t.store.has i)
    (i : BitstreamId) :
    ((svc.ensure source b).run.run s).2.store.has i =
      ((svc.ensure source b).run.run t).2.store.has i := by
  rw [has_ensure, has_ensure, h]

/-- Stores that have previews of the same bitstreams have the same turns. -/
theorem turns_congr (h : ∀ i, s.store.has i = t.store.has i) :
    ((svc.turns source bs).run s).1 = ((svc.turns source bs).run t).1 := by
  induction bs generalizing s t with
  | nil => rfl
  | cons b rest ih =>
      have hrest := ih (has_ensure_congr svc source b h)
      rw [turns_cons, turns_cons, ensure_reply, ensure_reply, h b.id]
      dsimp only
      rw [hrest]

/-- Two turns about different identifiers can be exchanged. -/
theorem turns_swap {b c : Bitstream} (hid : b.id ≠ c.id) (rest : List Bitstream)
    (s : ServiceState Memory) :
    ((svc.turns source (b :: c :: rest)).run s).1.Perm
      ((svc.turns source (c :: b :: rest)).run s).1 := by
  have hb : ((svc.ensure source c).run.run s).2.store.has b.id = s.store.has b.id := by
    rw [has_ensure, decide_eq_false (Ne.symm hid), Bool.false_and, Bool.or_false]
  have hc : ((svc.ensure source b).run.run s).2.store.has c.id = s.store.has c.id := by
    rw [has_ensure, decide_eq_false hid, Bool.false_and, Bool.or_false]
  have hrest : ((svc.turns source rest).run ((svc.ensure source c).run.run
        ((svc.ensure source b).run.run s).2).2).1 =
      ((svc.turns source rest).run ((svc.ensure source b).run.run
        ((svc.ensure source c).run.run s).2).2).1 := by
    refine turns_congr svc source fun i => ?_
    rw [has_ensure, has_ensure, has_ensure, has_ensure, Bool.or_right_comm]
  rw [turns_cons, turns_cons, turns_cons, turns_cons]
  dsimp only
  rw [ensure_reply, ensure_reply, ensure_reply, ensure_reply, hb, hc, hrest]
  exact List.Perm.swap _ _ _

/-- The turns of a sweep in another order.  The two states only have to agree in what has a
preview; more cannot be kept up, since identities depend on the order. -/
theorem turns_perm (hperm : bs.Perm cs) (halike : DescribedAlike bs)
    (h : ∀ i, s.store.has i = t.store.has i) :
    ((svc.turns source bs).run s).1.Perm ((svc.turns source cs).run t).1 := by
  induction hperm generalizing s t with
  | nil => exact List.Perm.refl _
  | cons b hrest ih =>
      have hlater := ih halike.of_cons (has_ensure_congr svc source b h)
      rw [turns_cons, turns_cons, ensure_reply, ensure_reply, h b.id]
      exact hlater.cons _
  | swap b c rest =>
      rw [← turns_congr svc source h]
      by_cases hid : c.id = b.id
      · obtain rfl : c = b := halike c List.mem_cons_self b (by simp) hid
        exact List.Perm.refl _
      · exact turns_swap svc source hid rest s
  | trans hfirst hsecond ihfirst ihsecond =>
      have hmiddle := ihfirst (s := s) (t := s) halike fun _ => rfl
      exact hmiddle.trans (ihsecond (halike.perm hfirst) h)

/-- What is stored after a sweep in another order. -/
theorem shown?_sweep_perm (hperm : bs.Perm cs) (halike : DescribedAlike bs)
    (s : ServiceState Memory) (i : BitstreamId) :
    ((svc.sweep source bs).run s).2.store.shown? i =
      ((svc.sweep source cs).run s).2.store.shown? i := by
  by_cases hmem : ∃ b ∈ bs, b.id = i
  · obtain ⟨b, hb, rfl⟩ := hmem
    rw [shown?_sweep_of_mem svc source s halike hb,
      shown?_sweep_of_mem svc source s (halike.perm hperm) (hperm.mem_iff.1 hb)]
  · have hbs : ∀ b ∈ bs, b.id ≠ i := fun b hb hid => hmem ⟨b, hb, hid⟩
    have hcs : ∀ c ∈ cs, c.id ≠ i := fun c hc => hbs c (hperm.mem_iff.2 hc)
    rw [shown?_sweep_of_not_mem svc source s hbs, shown?_sweep_of_not_mem svc source s hcs]

end

/-- **The order of a sweep does not matter.**  Two sweeps from one state over the same
bitstreams in any two orders, in which an identifier means one description, report the
same numbers and the same failures in some order, and behind them the same previews are
stored, each as it is shown. -/
theorem sweep_perm (svc : Service) (source : Source) (s : ServiceState Memory)
    {bs cs : List Bitstream} (hperm : bs.Perm cs) (halike : DescribedAlike bs) :
    let left := (svc.sweep source bs).run s
    let right := (svc.sweep source cs).run s
    right.1.1 = { left.1.1 with failures := right.1.1.failures } ∧
      left.1.1.failures.Perm right.1.1.failures ∧
      ∀ i, left.2.store.shown? i = right.2.store.shown? i := by
  intro left right
  have hturns := turns_perm svc source (s := s) (t := s) hperm halike fun _ => rfl
  have hleft : left.1.1 = _ := report_sweep svc source s bs
  have hright : right.1.1 = _ := report_sweep svc source s cs
  obtain ⟨hnumbers, hfailures⟩ := SweepReport.ofTurns_perm hturns
  rw [hleft, hright]
  exact ⟨hnumbers, hfailures, shown?_sweep_perm svc source hperm halike s⟩

/-- Two texts under names of archives, which fail in the order in which they come, and a
text that comes up twice. -/
theorem sweep_perm_failures :
    let svc : Service := ⟨{}, .unrestricted, {}⟩
    let source := Source.ofStreams
      [("t", .ofBytes [0x68, 0x69]), ("y", .ofBytes []), ("z", .ofBytes [])]
    let text : Bitstream := ⟨"t", some "t.txt", "text/plain", 1⟩
    let y : Bitstream := ⟨"y", some "y.zip", "text/plain", 2⟩
    let z : Bitstream := ⟨"z", some "z.tar", "text/plain", 3⟩
    let s : ServiceState Memory := { store := {} }
    let left := (svc.sweep source [y, text, z, text]).run s
    let right := (svc.sweep source [text, z, text, y]).run s
    [y, text, z, text].Perm [text, z, text, y] ∧ DescribedAlike [y, text, z, text] ∧
      left.1.1.failures ≠ right.1.1.failures ∧ left.1.1.failures.Perm right.1.1.failures ∧
      right.1.1.generated = left.1.1.generated ∧
      left.2.store.shown? "t" = right.2.store.shown? "t" := by
  intro svc source text y z s
  have hperm : [y, text, z, text].Perm [text, z, text, y] := by decide
  have halike : DescribedAlike [y, text, z, text] := by
    unfold DescribedAlike
    decide
  have horders : ((svc.sweep source [y, text, z, text]).run s).1.1.failures ≠
      ((svc.sweep source [text, z, text, y]).run s).1.1.failures := by decide +kernel
  obtain ⟨hnumbers, hfailures, hshown⟩ := sweep_perm svc source s hperm halike
  have hgenerated := congrArg SweepReport.generated hnumbers
  dsimp only at hgenerated ⊢
  exact ⟨hperm, halike, horders, hfailures, hgenerated, hshown "t"⟩

end Service

end ContentPreview
