import ContentPreview.Proofs.Service.Turns

/-!
# Sweeping twice

Behind a sweep the store is settled for its list: each bitstream has a preview or has
none to keep.  So a second sweep stores nothing, and since it leaves the store as it is,
all its turns look at the same store.

Its turns are those of the first, with `existing` in the place of what was stored.  This
needs that an identifier means one description: otherwise an entry without a preview to
keep may find at its second turn what another entry has stored under its identifier
behind its first.

## Main definitions

* `Turn.again` — a turn as the second sweep repeats it.

## Main results

* `stored?_reply` — what a turn stores.
* `turns_of_settled` — the turns of a sweep that finds nothing to do.
* `again_turns` — the turns of two sweeps, one by one.
* `sweep_twice` — the reports and the stores of two sweeps.
-/

namespace ContentPreview

/-! ## Turns and their repetitions -/

namespace Turn

/-- A turn as it is repeated when all that it stored is there. -/
def again (t : Turn) : Turn := if t.stored?.isSome then { t with answer := .ok .existing } else t

theorem stored?_again (t : Turn) : t.again.stored? = none := by
  unfold again
  by_cases hstored : t.stored?.isSome = true
  · rw [if_pos hstored]
    rfl
  · rw [if_neg hstored]
    simpa using hstored

theorem failure?_again (t : Turn) : t.again.failure? = t.failure? := by
  obtain ⟨b, answer⟩ := t
  cases answer with
  | error e => rfl
  | ok outcome => cases outcome <;> rfl

/-- What was stored is there. -/
theorem endsIn_existing_again (t : Turn) :
    (if t.again.endsIn .existing then 1 else 0) =
      (if t.endsIn .existing then 1 else 0) + if t.stored?.isSome then 1 else 0 := by
  obtain ⟨b, answer⟩ := t
  cases answer with
  | error e => rfl
  | ok outcome => cases outcome <;> rfl

/-- A turn with another outcome has it again. -/
theorem endsIn_again {outcome : Outcome} (hexisting : outcome ≠ .existing)
    (hstored : ∀ nodes, outcome ≠ .stored nodes) (t : Turn) :
    t.again.endsIn outcome = t.endsIn outcome := by
  obtain ⟨b, answer⟩ := t
  cases answer with
  | error e => rfl
  | ok ended =>
      cases ended with
      | stored nodes =>
          cases outcome with
          | existing => exact absurd rfl hexisting
          | stored n => exact absurd rfl (hstored n)
          | _ => rfl
      | _ => rfl

end Turn

section Repeated

variable (ts : List Turn)

theorem countP_existing_again :
    (ts.map Turn.again).countP (Turn.endsIn .existing) =
      ts.countP (Turn.endsIn .existing) + ts.countP (·.stored?.isSome) := by
  induction ts with
  | nil => rfl
  | cons t ts ih =>
      have hturn := t.endsIn_existing_again
      rw [List.map_cons, List.countP_cons, List.countP_cons, List.countP_cons, ih]
      omega

theorem countP_again (outcome : Outcome) (hexisting : outcome ≠ .existing)
    (hstored : ∀ nodes, outcome ≠ .stored nodes) :
    (ts.map Turn.again).countP (Turn.endsIn outcome) = ts.countP (Turn.endsIn outcome) := by
  rw [List.countP_map]
  refine List.countP_congr fun t _ => ?_
  rw [Function.comp_apply, Turn.endsIn_again hexisting hstored]

theorem Turn.nodesStored_eq_zero {ts : List Turn} (h : ∀ t ∈ ts, t.stored? = none) :
    nodesStored ts = 0 := by
  induction ts with
  | nil => rfl
  | cons t ts ih =>
      change t.stored?.getD 0 + nodesStored ts = 0
      rw [h t List.mem_cons_self, ih fun u hu => h u (List.mem_cons_of_mem t hu)]
      rfl

/-- The report on the repeated turns. -/
theorem SweepReport.ofTurns_map_again :
    ofTurns (ts.map Turn.again) = { ofTurns ts with
      existing := (ofTurns ts).existing + (ofTurns ts).generated
      generated := 0
      nodesStored := 0 } := by
  have hstored : ∀ t ∈ ts.map Turn.again, t.stored? = none := by
    intro t ht
    obtain ⟨t, -, rfl⟩ := List.mem_map.1 ht
    exact t.stored?_again
  have hgenerated : (ts.map Turn.again).countP (·.stored?.isSome) = 0 :=
    List.countP_eq_zero.2 fun t ht => by simp [hstored t ht]
  have hnodes : Turn.nodesStored (ts.map Turn.again) = 0 :=
    Turn.nodesStored_eq_zero hstored
  have hfailures : (ts.map Turn.again).filterMap Turn.failure? = ts.filterMap Turn.failure? := by
    rw [List.filterMap_map, show Turn.failure? ∘ Turn.again = Turn.failure? from
      funext Turn.failure?_again]
  unfold ofTurns
  rw [List.length_map, countP_existing_again, hgenerated, hnodes, hfailures,
    countP_again ts .denied nofun nofun, countP_again ts .transient nofun nofun,
    countP_again ts .empty nofun nofun]

end Repeated

/-! ## A sweep that finds nothing to do -/

namespace Service

section

variable (svc : Service) (source : Source) {b : Bitstream} {bs : List Bitstream}

/-- A turn stores what can be kept, unless a preview is stored already. -/
theorem stored?_reply (b : Bitstream) (stored : Bool) :
    (⟨b, svc.reply source b stored⟩ : Turn).stored? =
      if stored then none else (svc.keepable? source b).map View.totalNodes := by
  cases hgate : svc.canPreview b with
  | false =>
      rw [reply_of_denied hgate, keepable?_of_denied hgate]
      exact (ite_self none).symm
  | true =>
      cases stored with
      | true =>
          rw [reply_true hgate]
          rfl
      | false =>
          rw [reply_false hgate]
          cases hkeepable : svc.keepable? source b with
          | some roots =>
              rw [(keepable?_eq_some_iff.1 hkeepable).verdict]
              rfl
          | none =>
              cases hverdict : svc.verdict source b with
              | error e => rfl
              | ok outcome =>
                  cases outcome with
                  | stored nodes =>
                      obtain ⟨roots, hoffers, -⟩ := offers_of_verdict hgate hverdict
                      exact absurd hoffers (keepable?_eq_none_iff.1 hkeepable roots)
                  | _ => rfl

/-- The repetition of a turn, as a turn over a store that has what the first stored. -/
theorem again_reply (b : Bitstream) (stored : Bool) :
    (⟨b, svc.reply source b stored⟩ : Turn).again =
      ⟨b, svc.reply source b (stored || (svc.keepable? source b).isSome)⟩ := by
  unfold Turn.again
  rw [stored?_reply]
  cases stored with
  | true => rfl
  | false =>
      cases hkeepable : svc.keepable? source b with
      | none => rfl
      | some roots =>
          rw [Option.isSome_some, Bool.or_true,
            reply_true (keepable?_eq_some_iff.1 hkeepable).admitted]
          rfl

/-- A sweep that has nothing to store looks at the same store at each turn. -/
theorem turns_of_settled (s : ServiceState Memory)
    (h : ∀ b ∈ bs, s.store.has b.id = false → svc.keepable? source b = none) :
    ((svc.turns source bs).run s).1 =
        bs.map (fun b => ⟨b, svc.reply source b (s.store.has b.id)⟩) ∧
      ((svc.turns source bs).run s).2.store = s.store := by
  induction bs generalizing s with
  | nil => exact ⟨rfl, rfl⟩
  | cons b rest ih =>
      have hstore : ((svc.ensure source b).run.run s).2.store = s.store := by
        rw [ensure_store]
        cases hhas : s.store.has b.id with
        | true => exact if_pos hhas
        | false => rw [h b List.mem_cons_self hhas, Memory.fill_none]
      obtain ⟨hturns, hlast⟩ := ih ((svc.ensure source b).run.run s).2 fun c hc => by
        rw [hstore]
        exact h c (List.mem_cons_of_mem b hc)
      rw [turns_cons, List.map_cons]
      dsimp only
      rw [hturns, hlast, hstore, ensure_reply]
      exact ⟨rfl, rfl⟩

/-- Behind a sweep there is nothing to store for its bitstreams. -/
theorem settled_after_sweep (s : ServiceState Memory) (hb : b ∈ bs)
    (hhas : ((svc.sweep source bs).run s).2.store.has b.id = false) :
    svc.keepable? source b = none := by
  rw [← Memory.shown?_eq_none, shown?_sweep, Option.or_eq_none_iff,
    List.findSome?_eq_none_iff] at hhas
  have hnone := hhas.2 b hb
  rwa [if_pos rfl] at hnone

/-- The turns of a second sweep, as turns over the store that the first leaves.  Behind the
first, an entry has what it had at its turn, or what it offers, since no other entry with its
identifier offers anything else. -/
theorem map_again_turns (s : ServiceState Memory) (h : DescribedAlike bs) :
    ((svc.turns source bs).run s).1.map Turn.again =
      bs.map fun b =>
        ⟨b, svc.reply source b (((svc.turns source bs).run s).2.store.has b.id)⟩ := by
  induction bs generalizing s with
  | nil => rfl
  | cons b rest ih =>
      have hlast : ((svc.turns source (b :: rest)).run s).2.store.has b.id =
          (s.store.has b.id || (svc.keepable? source b).isSome) := by
        rw [← state_sweep, Memory.has_eq_isSome_shown?,
          shown?_sweep_of_mem svc source s h List.mem_cons_self, Option.isSome_or,
          Memory.has_eq_isSome_shown?]
      rw [List.map_cons, hlast, turns_cons, List.map_cons, ensure_reply, again_reply]
      exact congrArg _ (ih _ h.of_cons)

end

/-- **Sweeping twice is sweeping once.**  A second sweep over the same bitstreams stores
nothing and leaves the store as it is.  If an identifier means one description, its
report is that of the first with `existing` in the place of `generated`: all other
numbers are the same, and so are the failures and their order. -/
theorem sweep_twice (svc : Service) (source : Source) (s : ServiceState Memory)
    (bs : List Bitstream) :
    let first := (svc.sweep source bs).run s
    let second := (svc.sweep source bs).run first.2
    second.1.1.generated = 0 ∧ second.1.1.nodesStored = 0 ∧ second.2.store = first.2.store ∧
      (DescribedAlike bs →
        second.1.1 = { first.1.1 with
          existing := first.1.1.existing + first.1.1.generated
          generated := 0
          nodesStored := 0 }) := by
  intro first second
  obtain ⟨hturns, hstore⟩ := turns_of_settled svc source first.2 fun b hb =>
    settled_after_sweep svc source s hb
  have hreport : second.1.1 = .ofTurns (bs.map fun b =>
      ⟨b, svc.reply source b (first.2.store.has b.id)⟩) := by
    rw [← hturns]
    exact report_sweep svc source first.2 bs
  have hnone : ∀ t ∈ bs.map fun b => (⟨b, svc.reply source b (first.2.store.has b.id)⟩ : Turn),
      t.stored? = none := by
    intro t ht
    obtain ⟨b, hb, rfl⟩ := List.mem_map.1 ht
    rw [stored?_reply]
    cases hhas : first.2.store.has b.id with
    | true => rfl
    | false =>
        rw [settled_after_sweep svc source s hb hhas]
        rfl
  refine ⟨?_, ?_, ?_, ?_⟩
  · rw [hreport]
    exact List.countP_eq_zero.2 fun t ht => by simp [hnone t ht]
  · rw [hreport]
    exact Turn.nodesStored_eq_zero hnone
  · change ((svc.sweep source bs).run first.2).2.store = _
    rw [state_sweep, hstore]
  · intro halike
    have hagain := map_again_turns svc source s halike
    rw [← state_sweep] at hagain
    rw [hreport, ← hagain, SweepReport.ofTurns_map_again, ← report_sweep]

/-- A text that comes up twice, a page, and a text under the name of an archive. -/
theorem sweep_twice_repeated :
    let svc : Service := ⟨{}, .unrestricted, {}⟩
    let source := Source.ofStreams [("t", .ofBytes [0x68, 0x69]), ("z", .ofBytes [0x68])]
    let text : Bitstream := ⟨"t", some "t.txt", "text/plain", 1⟩
    let page : Bitstream := ⟨"p", some "p.html", "text/html", 2⟩
    let archive : Bitstream := ⟨"z", some "z.zip", "text/plain", 3⟩
    let bs := [text, page, archive, text]
    let s : ServiceState Memory := { store := {} }
    let first := (svc.sweep source bs).run s
    let second := (svc.sweep source bs).run first.2
    DescribedAlike bs ∧
      (first.1.1.generated, first.1.1.nodesStored, first.1.1.existing) = (1, 1, 1) ∧
      (second.1.1.generated, second.1.1.nodesStored, second.1.1.existing) = (0, 0, 2) ∧
      second.1.1.failures = first.1.1.failures ∧ second.2.store = first.2.store := by
  intro svc source text page archive bs s
  have halike : DescribedAlike bs := by
    unfold DescribedAlike
    decide
  have hcounts : ((svc.sweep source bs).run s).1.1.generated = 1 ∧
      ((svc.sweep source bs).run s).1.1.nodesStored = 1 ∧
      ((svc.sweep source bs).run s).1.1.existing = 1 := by decide +kernel
  obtain ⟨hgenerated, hnodes, hstore, hreport⟩ := sweep_twice svc source s bs
  have hsecond := hreport halike
  have hexisting := congrArg SweepReport.existing hsecond
  have hfailures := congrArg SweepReport.failures hsecond
  dsimp only at hexisting hfailures ⊢
  rw [hcounts.1, hcounts.2.1, hcounts.2.2, hgenerated, hnodes, hexisting, hcounts.1, hcounts.2.2]
  exact ⟨halike, rfl, rfl, hfailures, hstore⟩

end Service

end ContentPreview
