import ContentPreview.Proofs.Service.Stability
import ContentPreview.Proofs.Service.Stored
import ContentPreview.Proofs.Service.Storing

/-!
# Accounts of the stored nodes

Nodes are counted at three places: views are counted when something is reported as
stored, stored trees when they are deleted, and a sweep adds up the reports of its
entries.  Over any run the three agree.  What the store holds together with what was
deleted is what was reported as stored, and a deletion gives back exactly what was
reported when the tree in question was stored.

The conversion keeps the number of nodes in both directions, so it makes no
difference which form of a preview is counted.  The rest is one equation for a
`Memory.keep`, one for an erasure, and an induction on the run.

## Main definitions

* `Books` — the sums of what the calls of a run reported.
* `Call.Reports` — a call reports that it stored the tree of an identifier.

## Main results

* `Books.balanced_enter` — one more call keeps the balance.
* `nodes_accounted_for` — the accounts of any run.
-/

namespace ContentPreview

/-! ## Counting nodes -/

namespace StoredNode

mutual

theorem nodeCount_toView (node : StoredNode) : node.toView.nodeCount = node.nodeCount :=
  match node with
  | ⟨_, _, _, _, _, _, children⟩ => by
    rw [toView, View.nodeCount, nodeCount, nodeCountAll_toViews children]

theorem nodeCountAll_toViews (children : List (String × StoredNode)) :
    View.nodeCountAll (toViews children) = nodeCountAll children :=
  match children with
  | [] => rfl
  | (_, node) :: rest => by
    rw [toViews, View.nodeCountAll, nodeCountAll, nodeCount_toView node,
      nodeCountAll_toViews rest]

end

theorem totalNodes_map_toView (roots : List StoredNode) :
    View.totalNodes (roots.map toView) = totalNodes roots := by
  induction roots with
  | nil => rfl
  | cons node rest ih =>
      change node.toView.nodeCount + View.totalNodes (rest.map toView) = _
      rw [nodeCount_toView, ih, totalNodes]

end StoredNode

namespace Memory

variable {m : Memory} {i : BitstreamId}

theorem nodeCount_cons (entry : BitstreamId × List StoredNode)
    (rest : List (BitstreamId × List StoredNode)) (next : Nat) :
    nodeCount ⟨entry :: rest, next⟩ = StoredNode.totalNodes entry.2 + nodeCount ⟨rest, next⟩ := rfl

theorem nodeCount_append (xs ys : List (BitstreamId × List StoredNode)) (next : Nat) :
    nodeCount ⟨xs ++ ys, next⟩ = nodeCount ⟨xs, next⟩ + nodeCount ⟨ys, next⟩ := by
  induction xs with
  | nil => exact (Nat.zero_add _).symm
  | cons entry rest ih =>
      rw [List.cons_append, nodeCount_cons, nodeCount_cons, ih, Nat.add_assoc]

theorem shown?_keep_of_free (m : Memory) (hfree : m.has i = false) {roots : List View}
    (hne : roots ≠ []) : (m.keep i roots).shown? i = some roots := by
  rw [m.shown?_keep hne, if_pos rfl, m.shown?_eq_none.2 hfree, Option.getD_none]

/-- A preview that is kept counts with its nodes. -/
theorem nodeCount_keep (hfree : m.has i = false) {roots : List View} (hne : roots ≠ []) :
    (m.keep i roots).nodeCount = m.nodeCount + View.totalNodes roots := by
  have hnumbered : (View.numberedRoots i m.nextId roots).isEmpty = false := by
    rw [View.isEmpty_numberedRoots, List.isEmpty_eq_false_iff]
    exact hne
  have hhas : (m.advanceBy (View.totalNodes roots)).has i = false := hfree
  have htotal : StoredNode.totalNodes (View.numberedRoots i m.nextId roots) =
      View.totalNodes roots := by
    rw [← StoredNode.totalNodes_map_toView, View.map_toView_numberedRoots]
  unfold keep insert
  rw [hnumbered, hhas, if_neg (by simp), nodeCount_append, nodeCount_cons, htotal]
  rfl

/-- What an erasure takes away is what was stored. -/
theorem nodeCount_erase (hkeys : (m.trees.map Prod.fst).Nodup) (i : BitstreamId) :
    (m.erase i).nodeCount + StoredNode.totalNodes (m.roots i) = m.nodeCount := by
  obtain ⟨trees, next⟩ := m
  unfold erase roots
  dsimp only at hkeys ⊢
  induction trees with
  | nil => rfl
  | cons entry rest ih =>
      obtain ⟨key, roots⟩ := entry
      obtain ⟨hnew, hrest⟩ := List.nodup_cons.1 hkeys
      by_cases hkey : key = i
      · subst hkey
        have hkept : rest.filter (·.1 != key) = rest := by
          rw [List.filter_eq_self]
          intro entry hentry
          have hne : entry.1 ≠ key := fun heq =>
            hnew (List.mem_map.2 ⟨entry, hentry, heq⟩)
          simpa using hne
        rw [List.filter_cons_of_neg (by simp), hkept, List.lookup_cons_self, Option.getD_some,
          nodeCount_cons, Nat.add_comm]
      · rw [List.filter_cons_of_pos (by simpa using hkey),
          Keyed.lookup_cons_of_ne (Ne.symm hkey), nodeCount_cons, nodeCount_cons, Nat.add_assoc,
          ih hrest]

/-- A deletion counts the nodes of what is shown. -/
theorem totalNodes_roots (m : Memory) (i : BitstreamId) :
    StoredNode.totalNodes (m.roots i) = View.totalNodes ((m.shown? i).getD []) := by
  unfold roots shown?
  cases m.trees.lookup i with
  | none => rfl
  | some roots => exact (StoredNode.totalNodes_map_toView roots).symm

end Memory

/-! ## The books of a run -/

/-- The sums of what the calls of a run reported, in nodes. -/
structure Books where
  /-- Reported as stored by making sure of single previews. -/
  ensured : Nat := 0
  /-- Reported as stored by sweeps. -/
  swept : Nat := 0
  /-- In previews that were shown by the call that stored them. -/
  shown : Nat := 0
  /-- Reported as deleted. -/
  deleted : Nat := 0

/-- The number of nodes that an answer is about: those shown, stored or deleted. -/
def Answer.nodes : Answer → Nat
  | .preview (.ok roots) => View.totalNodes roots
  | .outcome (.ok (.stored nodes)) => nodes
  | .removed (.ok nodes) => nodes
  | .report swept _ => swept.nodesStored
  | .preview (.error _) | .outcome _ | .removed (.error _) => 0

/-- Whether a call finds nothing stored for an identifier and leaves something. -/
def Call.inserts (c : Call) (s : ServiceState Memory) (i : BitstreamId) : Bool :=
  !s.store.has i && (c.perform.run s).2.store.has i

namespace Books

/-- The books after one more call.  Of the previews that were shown, only those count
that their call stored. -/
def enter (books : Books) (c : Call) (s : ServiceState Memory) : Books :=
  let nodes := (c.perform.run s).1.nodes
  match c.request with
  | .page _ b => if c.inserts s b.id then { books with shown := books.shown + nodes } else books
  | .ensure _ _ => { books with ensured := books.ensured + nodes }
  | .sweep _ _ => { books with swept := books.swept + nodes }
  | .delete _ => { books with deleted := books.deleted + nodes }
  | .stored _ | .generate _ _ => books

/-- The books after a run. -/
def close : List Call → ServiceState Memory → Books → Books
  | [], _, books => books
  | c :: rest, s, books => close rest (c.perform.run s).2 (books.enter c s)

/-- What is stored or was deleted is what was reported as stored. -/
def Balanced (books : Books) (m : Memory) : Prop :=
  m.nodeCount + books.deleted = books.ensured + books.swept + books.shown

theorem nodesStored_note_stored (report : SweepReport) (b : Bitstream) (nodes : Nat) :
    (report.note b (.ok (.stored nodes))).nodesStored = report.nodesStored + nodes := rfl

theorem nodesStored_note_of_not_stored (report : SweepReport) (b : Bitstream)
    {answer : Except PreviewError Outcome} (h : ∀ nodes, answer ≠ .ok (.stored nodes)) :
    (report.note b answer).nodesStored = report.nodesStored := by
  cases answer with
  | error e => rfl
  | ok outcome =>
      cases outcome with
      | stored nodes => exact absurd rfl (h nodes)
      | _ => rfl

/-- A sweep reports the nodes that it adds. -/
theorem nodeCount_sweepFrom (svc : Service) (source : Source) (bs : List Bitstream)
    (report : SweepReport) (sent : List SweepProgress) (s : ServiceState Memory) :
    ((svc.sweepFrom source bs report sent).run s).2.store.nodeCount + report.nodesStored =
      s.store.nodeCount + ((svc.sweepFrom source bs report sent).run s).1.1.nodesStored := by
  induction bs generalizing report sent s with
  | nil => rfl
  | cons b rest ih =>
      rw [Service.sweepFrom_cons]
      generalize sent ++ _ = sent
      have hrest := ih (report.note b ((svc.ensure source b).run.run s).1) sent
        ((svc.ensure source b).run.run s).2
      rcases Service.ensure_stores svc source b s with
        ⟨hsame, hnot⟩ | ⟨roots, hoffers, hfree, hanswer, hkept⟩
      · rw [nodesStored_note_of_not_stored report b hnot, hsame] at hrest
        exact hrest
      · rw [hanswer] at hrest ⊢
        rw [nodesStored_note_stored, hkept, Memory.nodeCount_keep hfree hoffers.nonempty] at hrest
        omega

variable {books : Books} {s : ServiceState Memory}

/-- One more call keeps the balance. -/
theorem balanced_enter (c : Call) (hkeys : (s.store.trees.map Prod.fst).Nodup)
    (h : books.Balanced s.store) : (books.enter c s).Balanced (c.perform.run s).2.store := by
  obtain ⟨svc, request⟩ := c
  unfold Balanced at h ⊢
  cases request with
  | page source b =>
      unfold enter Call.inserts Call.perform
      dsimp only
      rw [run_map]
      rcases Service.getOrGenerate_stores svc source b s with
        hsame | ⟨roots, hoffers, hfree, hanswer, hkept⟩
      · have hnot : ¬ (!s.store.has b.id && s.store.has b.id) = true := by simp
        rwa [hsame, if_neg hnot]
      · have hhas : (s.store.keep b.id roots).has b.id = true :=
          Memory.has_of_shown (s.store.shown?_keep_of_free hfree hoffers.nonempty)
        rw [hkept, hfree, hhas, if_pos (by decide), hanswer,
          Memory.nodeCount_keep hfree hoffers.nonempty]
        dsimp only [Answer.nodes]
        omega
  | ensure source b =>
      unfold enter Call.perform
      dsimp only
      rw [run_map]
      rcases Service.ensure_stores svc source b s with
        ⟨hsame, hnot⟩ | ⟨roots, hoffers, hfree, hanswer, hkept⟩
      · have hnone : (Answer.outcome ((svc.ensure source b).run.run s).1).nodes = 0 := by
          cases hanswer : ((svc.ensure source b).run.run s).1 with
          | error e => rfl
          | ok outcome =>
              cases outcome with
              | stored nodes => exact absurd hanswer (hnot nodes)
              | _ => rfl
        rwa [hsame, hnone]
      · rw [hkept, hanswer, Memory.nodeCount_keep hfree hoffers.nonempty]
        dsimp only [Answer.nodes]
        omega
  | stored i =>
      unfold enter Call.perform
      dsimp only
      rwa [run_map, Service.storedPreview_run]
  | generate b stream =>
      unfold enter Call.perform
      dsimp only
      rwa [run_map, Service.onScratch_run]
  | delete i =>
      unfold enter Call.perform
      dsimp only
      rw [run_map]
      cases hadmin : svc.gate.isAdmin with
      | false =>
          rw [Service.delete_of_not_admin svc i s hadmin]
          exact h
      | true =>
          have herase := Memory.nodeCount_erase hkeys i
          rw [Service.delete_of_admin svc i s hadmin]
          dsimp only [Answer.nodes]
          omega
  | sweep source bs =>
      have hswept := nodeCount_sweepFrom svc source bs {} [] s
      unfold enter Call.perform Service.sweep
      dsimp only
      rw [run_map]
      dsimp only [Answer.nodes] at hswept ⊢
      omega

/-- The books of a run balance. -/
theorem balanced_close (calls : List Call) (hnumbered : s.store.IsNumbered)
    (h : books.Balanced s.store) :
    (close calls s books).Balanced ((performAll calls).run s).2.store := by
  induction calls generalizing s books with
  | nil => exact h
  | cons c rest ih =>
      have hnext := isNumbered_perform c hnumbered
      rw [performAll_cons]
      exact ih hnext (balanced_enter c hnumbered.isMap.keys h)

end Books

/-! ## What a deletion gives back -/

/-- A call reports that it stored the tree of an identifier with so many nodes.  A sweep
does so by what it was answered for one of its entries when that entry's turn came. -/
inductive Call.Reports (s : ServiceState Memory) : Call → BitstreamId → Nat → Prop where
  | page {svc : Service} {source : Source} {b : Bitstream} {roots : List View}
      (hinserts : Call.inserts ⟨svc, .page source b⟩ s b.id = true)
      (hanswer : ((svc.getOrGenerate source b).run.run s).1 = .ok roots) :
      Reports s ⟨svc, .page source b⟩ b.id (View.totalNodes roots)
  | ensure {svc : Service} {source : Source} {b : Bitstream} {nodes : Nat}
      (hanswer : ((svc.ensure source b).run.run s).1 = .ok (.stored nodes)) :
      Reports s ⟨svc, .ensure source b⟩ b.id nodes
  | sweep {svc : Service} {source : Source} {front : List Bitstream} {b : Bitstream}
      {rest : List Bitstream} {nodes : Nat}
      (hanswer : ((svc.ensure source b).run.run ((svc.sweep source front).run s).2).1 =
        .ok (.stored nodes)) :
      Reports s ⟨svc, .sweep source (front ++ b :: rest)⟩ b.id nodes

section Reports

variable {s : ServiceState Memory} {c : Call} {i : BitstreamId} {nodes : Nat}

/-- What a call reports as stored is shown afterwards. -/
theorem Call.Reports.shown (h : c.Reports s i nodes) :
    ∃ roots, (c.perform.run s).2.store.shown? i = some roots ∧
      View.totalNodes roots = nodes := by
  cases h with
  | @page svc source b roots hinserts hanswer =>
      change (!s.store.has b.id && ((svc.getOrGenerate source b).run.run s).2.store.has b.id) =
        true at hinserts
      rcases Service.getOrGenerate_stores svc source b s with
        hsame | ⟨kept, hoffers, hfree, hkeptAnswer, hkept⟩
      · rw [hsame] at hinserts
        simp at hinserts
      · rw [hkeptAnswer, Except.ok.injEq] at hanswer
        subst hanswer
        refine ⟨kept, ?_, rfl⟩
        change ((svc.getOrGenerate source b).run.run s).2.store.shown? b.id = some kept
        rw [hkept, s.store.shown?_keep_of_free hfree hoffers.nonempty]
  | @ensure svc source b _ hanswer =>
      rcases Service.ensure_stores svc source b s with
        ⟨-, hnot⟩ | ⟨kept, hoffers, hfree, hkeptAnswer, hkept⟩
      · exact absurd hanswer (hnot nodes)
      · rw [hkeptAnswer, Except.ok.injEq, Outcome.stored.injEq] at hanswer
        refine ⟨kept, ?_, hanswer⟩
        change ((svc.ensure source b).run.run s).2.store.shown? b.id = some kept
        rw [hkept, s.store.shown?_keep_of_free hfree hoffers.nonempty]
  | @sweep svc source front b rest _ hanswer =>
      have hturn := Service.ensure_stores svc source b ((svc.sweep source front).run s).2
      rcases hturn with ⟨-, hnot⟩ | ⟨kept, hoffers, hfree, hkeptAnswer, hkept⟩
      · exact absurd hanswer (hnot nodes)
      · rw [hkeptAnswer, Except.ok.injEq, Outcome.stored.injEq] at hanswer
        refine ⟨kept, ?_, hanswer⟩
        rw [Service.ensure_store, Service.sweep_store] at hkept
        rw [Service.sweep_store] at hfree
        change ((svc.sweep source (front ++ b :: rest)).run s).2.store.shown? b.id = some kept
        rw [Service.sweep_store, List.foldl_append, List.foldl_cons, hkept,
          Service.shown?_foldl_fill, Memory.shown?_keep_of_free _ hfree hoffers.nonempty,
          Option.some_or]

/-- A call that stores a preview where there is none reports it. -/
theorem Call.reports_of_keeps {views : List View} (hfree : s.store.has i = false)
    (h : c.keeps? i = some views) : c.Reports s i (View.totalNodes views) := by
  obtain ⟨svc, request⟩ := c
  unfold Call.keeps? at h
  cases request with
  | page source b =>
      dsimp only at h
      rw [Option.ite_none_right_eq_some] at h
      obtain ⟨⟨rfl, hload⟩, hkeepable⟩ := h
      have hoffers := Service.keepable?_eq_some_iff.1 hkeepable
      obtain ⟨opens, ledger, hrun⟩ :=
        Service.getOrGenerate_of_missing svc source b s hoffers.admitted hfree hload
      have hkept : ((svc.getOrGenerate source b).run.run s).2.store.shown? b.id = some views := by
        rw [hrun, hkeepable, Memory.fill_some hfree,
          s.store.shown?_keep_of_free hfree hoffers.nonempty]
      refine .page ?_ (by rw [hrun, hoffers.made])
      change (!s.store.has b.id && ((svc.getOrGenerate source b).run.run s).2.store.has b.id) = true
      rw [hfree, Memory.has_of_shown hkept]
      rfl
  | ensure source b =>
      dsimp only at h
      rw [Option.ite_none_right_eq_some] at h
      obtain ⟨rfl, hkeepable⟩ := h
      have hoffers := Service.keepable?_eq_some_iff.1 hkeepable
      obtain ⟨opens, ledger, hrun⟩ :=
        Service.ensure_of_missing svc source b s hoffers.admitted hfree
      exact .ensure (by rw [hrun, hoffers.verdict])
  | sweep source bs =>
      dsimp only at h
      obtain ⟨front, b, rest, rfl, rfl, hoffers, hbefore⟩ :=
        (Service.findSome?_keepable_eq_some_iff svc source bs i views).1 h
      have hturn : ((svc.sweep source front).run s).2.store.has b.id = false := by
        rw [← Memory.shown?_eq_none, Service.sweep_store, Service.shown?_foldl_fill,
          (Memory.shown?_eq_none _).2 hfree, Option.none_or,
          Service.findSome?_keepable_eq_none_iff]
        exact hbefore
      obtain ⟨opens, ledger, hrun⟩ :=
        Service.ensure_of_missing svc source b _ hoffers.admitted hturn
      exact .sweep (by rw [hrun, hoffers.verdict])
  | stored j => cases h
  | generate b stream => cases h
  | delete j => cases h

/-- What is shown all through a run was not deleted in it. -/
theorem not_removes_of_shown {later : List Call} {roots : List View}
    (h : ∀ middle, middle <+: later →
      ((performAll middle).run s).2.store.shown? i = some roots) :
    ∀ e ∈ ((performAll later).run s).1, ¬ e.1.Removes e.2 i := by
  intro e he hremoves
  obtain ⟨front, rest, rfl, hanswer⟩ := exists_of_mem_history he
  have hshown := h (front ++ [e.1]) ⟨rest, by simp⟩
  rw [performAll_append] at hshown
  rw [hanswer] at hremoves
  have hgone := shown?_perform_removal hremoves
  change (e.1.perform.run ((performAll front).run s).2).2.store.shown? i = some roots at hshown
  rw [hgone] at hshown
  cases hshown

/-- What is shown after a run from the start was reported as stored by one of its calls, and
not deleted since. -/
theorem exists_reports_of_shown {calls : List Call} {roots : List View}
    (hshown : ((performAll calls).run fresh).2.store.shown? i = some roots) :
    ∃ before c later, calls = before ++ c :: later ∧
      c.Reports ((performAll before).run fresh).2 i (View.totalNodes roots) ∧
      ∀ e ∈ ((performAll later).run ((performAll (before ++ [c])).run fresh).2).1,
        ¬ e.1.Removes e.2 i := by
  rcases exists_storedBy hshown with hkept | ⟨before, c, later, hcalls, hby⟩
  · cases hkept [] List.nil_prefix
  · refine ⟨before, c, later, hcalls, Call.reports_of_keeps hby.free hby.keeps, ?_⟩
    have hsince (middle : List Call) (hmiddle : middle <+: later) :
        ((performAll middle).run
          ((performAll (before ++ [c])).run fresh).2).2.store.shown? i = some roots := by
      rw [← performAll_append, List.append_assoc]
      exact hby.since middle hmiddle
    exact not_removes_of_shown hsince

/-- A successful deletion counts what is shown before it. -/
theorem eq_totalNodes_of_removed {svc : Service}
    (h : ((⟨svc, .delete i⟩ : Call).perform.run s).1 = .removed (.ok nodes)) :
    nodes = View.totalNodes ((s.store.shown? i).getD []) := by
  change Answer.removed ((svc.delete i).run.run s).1 = .removed (.ok nodes) at h
  rw [Answer.removed.injEq] at h
  cases hadmin : svc.gate.isAdmin with
  | false =>
      rw [Service.delete_of_not_admin svc i s hadmin] at h
      cases h
  | true =>
      rw [Service.delete_of_admin svc i s hadmin, Except.ok.injEq] at h
      rw [← h, Memory.totalNodes_roots]

end Reports

/-- **The accounts of the stored nodes balance.**  After any run from the start the
nodes in the store and the nodes of all deletions are together those that were reported
as stored, by making sure of single previews, by sweeps, and in the previews that were
shown by the call that stored them.  A deletion gives back the number that was reported
when the present tree was stored, and nothing if no tree was stored since the last
deletion. -/
theorem nodes_accounted_for (calls : List Call) :
    let t := ((performAll calls).run fresh).2
    let books := Books.close calls fresh {}
    t.store.nodeCount + books.deleted = books.ensured + books.swept + books.shown ∧
      ∀ (svc : Service) (i : BitstreamId) (nodes : Nat),
        ((⟨svc, .delete i⟩ : Call).perform.run t).1 = .removed (.ok nodes) →
        (∀ before c later reported, calls = before ++ c :: later →
          c.Reports ((performAll before).run fresh).2 i reported →
          (∀ e ∈ ((performAll later).run ((performAll (before ++ [c])).run fresh).2).1,
            ¬ e.1.Removes e.2 i) →
          nodes = reported) ∧
        ((∀ before c later reported, calls = before ++ c :: later →
          c.Reports ((performAll before).run fresh).2 i reported →
          ∃ e ∈ ((performAll later).run ((performAll (before ++ [c])).run fresh).2).1,
            e.1.Removes e.2 i) →
          nodes = 0) := by
  intro t books
  have hfresh : fresh.store.IsNumbered := ⟨⟨List.nodup_nil, nofun⟩, nofun⟩
  refine ⟨Books.balanced_close calls hfresh rfl, ?_⟩
  intro svc i nodes hdeleted
  have hnodes := eq_totalNodes_of_removed hdeleted
  constructor
  · intro before c later reported hcalls hreports hkept
    obtain ⟨roots, hshown, htotal⟩ := hreports.shown
    have hlater : t.store.shown? i = some roots := by
      have hstate : t = ((performAll later).run ((performAll (before ++ [c])).run fresh).2).2 := by
        change ((performAll calls).run fresh).2 = _
        rw [hcalls, ← performAll_append, List.append_assoc]
        rfl
      rw [hstate]
      refine shown?_performAll ?_ hkept
      rw [performAll_append]
      exact hshown
    rw [hnodes, hlater, Option.getD_some, htotal]
  · intro hforgotten
    cases hshown : t.store.shown? i with
    | none =>
        rw [hnodes, hshown]
        rfl
    | some roots =>
        obtain ⟨before, c, later, hcalls, hreports, hkept⟩ := exists_reports_of_shown hshown
        obtain ⟨e, he, hremoves⟩ := hforgotten before c later _ hcalls hreports
        exact absurd hremoves (hkept e he)

/-- A text that is stored, deleted and stored again by a sweep, and an archive of three
nodes that is stored when it is shown. -/
theorem nodes_accounted_for_stored_anew :
    let svc : Service := ⟨⟨⟨1000, 20⟩, true, true⟩, .unrestricted, {}⟩
    let source := Source.ofStreams
      [("b", .ofBytes [0x68, 0x69]), ("zip", .ofBytes Service.awkwardArchive)]
    let text : Bitstream := ⟨"b", some "notes.txt", "text/plain", 1⟩
    let zip : Bitstream := ⟨"zip", some "a.zip", "application/zip", 2⟩
    let calls : List Call := [⟨svc, .ensure source text⟩, ⟨svc, .delete "b"⟩,
      ⟨svc, .sweep source [text]⟩, ⟨svc, .page source zip⟩]
    let t := ((performAll calls).run fresh).2
    let books := Books.close calls fresh {}
    books.ensured = 1 ∧ books.swept = 1 ∧ books.shown = 3 ∧ books.deleted = 1 ∧
      t.store.nodeCount = 4 ∧
      ((⟨svc, .delete "zip"⟩ : Call).perform.run t).1 = .removed (.ok 3) := by
  intro svc source text zip calls t books
  let before : List Call := [⟨svc, .ensure source text⟩, ⟨svc, .delete "b"⟩,
    ⟨svc, .sweep source [text]⟩]
  let page : Call := ⟨svc, .page source zip⟩
  obtain ⟨hensured, hswept, hshown, hdeleted, hinserts, hanswer⟩ :
      books.ensured = 1 ∧ books.swept = 1 ∧ books.shown = 3 ∧ books.deleted = 1 ∧
        page.inserts ((performAll before).run fresh).2 "zip" = true ∧
        ((svc.getOrGenerate source zip).run.run
          ((performAll before).run fresh).2).1.toOption.map View.totalNodes = some 3 := by
    decide +kernel
  obtain ⟨hbalance, hdeletion⟩ := nodes_accounted_for calls
  have hcount : t.store.nodeCount = 4 := by
    change t.store.nodeCount + books.deleted = books.ensured + books.swept + books.shown at hbalance
    omega
  have hdone : ((⟨svc, .delete "zip"⟩ : Call).perform.run t).1 =
      .removed (.ok (StoredNode.totalNodes (t.store.roots "zip"))) := by
    change Answer.removed ((svc.delete "zip").run.run t).1 = _
    rw [Service.delete_of_admin svc "zip" t rfl]
  have hreports : page.Reports ((performAll before).run fresh).2 "zip" 3 := by
    cases hroots : ((svc.getOrGenerate source zip).run.run ((performAll before).run fresh).2).1 with
    | error e =>
        rw [hroots] at hanswer
        cases hanswer
    | ok roots =>
        rw [hroots] at hanswer
        have htotal : View.totalNodes roots = 3 := Option.some.inj hanswer
        rw [← htotal]
        exact .page hinserts hroots
  have hgives := (hdeletion svc "zip" _ hdone).1 before page [] 3 rfl hreports
  refine ⟨hensured, hswept, hshown, hdeleted, hcount, ?_⟩
  rw [hdone, hgives]
  intro e he
  cases he

end ContentPreview
