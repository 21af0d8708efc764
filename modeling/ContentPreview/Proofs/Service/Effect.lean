import ContentPreview.Proofs.Extraction
import ContentPreview.Proofs.TextPreview
import ContentPreview.Proofs.Tree.Numbering
import ContentPreview.Sweep

/-!
# What service operations do to the store

Over the store in memory.  Whether and what an operation stores is settled before
it runs: it depends on the caller, the settings, the bitstream and its content
(`Service.keepable?`), and on the store only through the question whether there is
a preview already.  So every operation that may store something is a `Memory.fill`,
and a sweep is one after the other.

Generation neither reads nor changes the store, and its answer does not depend on
the ledger of scratch files.

## Main definitions

* `Memory.shown?` — the stored preview of a bitstream, as it is shown.
* `Memory.fill` — the memory after a preview was stored where there was none.
* `Service.made` — the preview of what a source holds for a bitstream.
* `Service.keepable?` — the preview that an operation may store.

## Main results

* `getOrGenerate_store`, `ensure_store`, `sweep_store`, `delete_of_admin` — the
  store after an operation.
* `getOrGenerate_of_shown`, `storedPreview_run` — what is stored is what is shown,
  and showing it leaves the state as it was.
* `Memory.shown?_fill`, `shown?_foldl_fill`, `shown?_sweep` — what is stored afterwards.
-/

namespace ContentPreview

/-! ## What a store shows -/

namespace Memory

variable (m : Memory)

/-- The preview that is stored for a bitstream, if there is one. -/
def shown? (i : BitstreamId) : Option (List View) :=
  (m.trees.lookup i).map fun roots => roots.map StoredNode.toView

/-- The memory after the trees of a preview were numbered and inserted. -/
def keep (i : BitstreamId) (roots : List View) : Memory :=
  (m.advanceBy (View.totalNodes roots)).insert i (View.numberedRoots i m.nextId roots)

/-- The memory after a preview, if there is one, was stored where there was none. -/
def fill (i : BitstreamId) (found? : Option (List View)) : Memory :=
  if m.has i then m
  else
    match found? with
    | some roots => m.keep i roots
    | none => m

theorem shown?_eq_none {i : BitstreamId} : m.shown? i = none ↔ m.has i = false := by
  rw [has_eq_false, shown?, Option.map_eq_none_iff]

theorem has_eq_isSome_shown? (i : BitstreamId) : m.has i = (m.shown? i).isSome := by
  unfold has shown?
  rw [Option.isSome_map]

theorem fill_none (i : BitstreamId) : m.fill i none = m := ite_self m

section

variable {m} {i : BitstreamId} {roots : List View}

theorem has_of_shown (h : m.shown? i = some roots) : m.has i = true := by
  rw [← Bool.not_eq_false, ← shown?_eq_none, h]
  simp

theorem fill_of_shown (h : m.shown? i = some roots) (found? : Option (List View)) :
    m.fill i found? = m := if_pos (has_of_shown h)

theorem fill_some (h : m.has i = false) : m.fill i (some roots) = m.keep i roots := by
  unfold fill
  rw [h]
  rfl

end

theorem shown?_keep {i : BitstreamId} {roots : List View} (hne : roots ≠ [])
    (j : BitstreamId) :
    (m.keep i roots).shown? j =
      if j = i then some ((m.shown? i).getD roots) else m.shown? j := by
  have hnumbered : View.numberedRoots i m.nextId roots ≠ [] := by
    rw [← List.isEmpty_eq_false_iff, View.isEmpty_numberedRoots, List.isEmpty_eq_false_iff]
    exact hne
  unfold shown? keep
  rw [lookup_insert hnumbered, trees_advanceBy]
  by_cases hj : j = i
  · rw [if_pos hj, if_pos hj]
    cases m.trees.lookup i with
    | none => simp [View.map_toView_numberedRoots]
    | some existing => rfl
  · rw [if_neg hj, if_neg hj]

/-- A preview is stored under its identifier alone, and only if there was none. -/
theorem shown?_fill {i : BitstreamId} {found? : Option (List View)}
    (hne : ∀ roots ∈ found?, roots ≠ []) (j : BitstreamId) :
    (m.fill i found?).shown? j = (m.shown? j).or (if i = j then found? else none) := by
  cases hshown : m.shown? i with
  | some roots =>
      rw [fill_of_shown hshown]
      by_cases hj : i = j
      · subst hj
        rw [hshown, Option.some_or]
      · rw [if_neg hj, Option.or_none]
  | none =>
      cases found? with
      | none => rw [fill_none, ite_self, Option.or_none]
      | some roots =>
          rw [fill_some (m.shown?_eq_none.1 hshown), m.shown?_keep (hne roots rfl), hshown]
          by_cases hj : i = j
          · subst hj
            rw [if_pos rfl, if_pos rfl, hshown]
            rfl
          · rw [if_neg (Ne.symm hj), if_neg hj, Option.or_none]

theorem shown?_erase (i j : BitstreamId) :
    (m.erase i).shown? j = if j = i then none else m.shown? j := by
  unfold shown?
  rw [lookup_erase]
  by_cases hj : j = i
  · rw [if_pos hj, if_pos hj]
    rfl
  · rw [if_neg hj, if_neg hj]

end Memory

/-! ## Generation -/

namespace Service

variable (svc : Service) (source : Source) (b : Bitstream)

/-- The preview of what a source holds for a bitstream. -/
def made : Except PreviewError (List View) :=
  if b.kind = .unsupported then .ok []
  else
    match source.content? b with
    | some s => ((svc.generate b s).run {}).1
    | none => .ok []

/-- The preview that an operation on a bitstream may store. -/
def keepable? : Option (List View) :=
  if svc.canPreview b && b.kind.isPersistable then
    match svc.made source b with
    | .ok roots => if roots.isEmpty then none else some roots
    | .error _ => none
  else none

variable {svc source b}

theorem keepable?_ne_nil {roots : List View} (h : roots ∈ svc.keepable? source b) :
    roots ≠ [] := by
  unfold keepable? at h
  split at h
  · split at h
    · rename_i made _
      by_cases hempty : made.isEmpty = true
      · simp [hempty] at h
      · simp only [hempty, Bool.false_eq_true, if_false, Option.mem_some_iff] at h
        subst h
        simpa using hempty
    · cases h
  · cases h

theorem keepable?_of_denied (hgate : svc.canPreview b = false) :
    svc.keepable? source b = none := by
  unfold keepable?
  rw [hgate]
  rfl

theorem keepable?_of_ok {roots : List View} (hgate : svc.canPreview b = true)
    (hmade : svc.made source b = .ok roots) :
    svc.keepable? source b =
      if roots.isEmpty || !b.kind.isPersistable then none else some roots := by
  unfold keepable?
  rw [hgate, hmade]
  dsimp only
  cases roots.isEmpty <;> cases b.kind.isPersistable <;> rfl

theorem keepable?_of_error {e : PreviewError} (hmade : svc.made source b = .error e) :
    svc.keepable? source b = none := by
  unfold keepable?
  rw [hmade]
  exact ite_self _

theorem keepable?_of_not_isPersistable (h : b.kind.isPersistable = false) :
    svc.keepable? source b = none := by
  unfold keepable?
  rw [h, Bool.and_false]
  rfl

/-- The answer of a generation does not depend on the ledger. -/
theorem generate_answer (s : Stream) (ledger ledger' : Ledger) :
    ((svc.generate b s).run ledger).1 = ((svc.generate b s).run ledger').1 := by
  have harchive (format : ArchiveFormat) :
      ((svc.archivePreview format s).run ledger).1 =
        ((svc.archivePreview format s).run ledger').1 :=
    congrArg (fun records => materialize (limitLeaves svc.config.maxLeafCount records))
      (extract_answer svc.extractor format s ledger ledger')
  unfold generate
  cases b.kind with
  | plainText => rfl
  | html => rfl
  | unsupported => rfl
  | zipArchive => exact congrArg Except.ok (harchive .zip)
  | tarArchive compression => exact congrArg Except.ok (harchive (.tar compression))

/-- A page never fails: what cannot be read has the empty preview. -/
theorem made_html (svc : Service) (source : Source) (hkind : b.kind = .html) :
    ∃ roots, svc.made source b = .ok roots := by
  unfold made generate
  rw [if_neg (by simp [hkind]), hkind]
  cases source.content? b with
  | none => exact ⟨[], rfl⟩
  | some stream => exact ⟨htmlPreview b stream, rfl⟩

/-- What is made of a text that is there in full, and is read in full. -/
theorem made_ofBytes (svc : Service) {bytes : List UInt8} (hkind : b.kind = .plainText)
    (hname : hasArchiveExtension b.nameOrEmpty = false)
    (hcontent : source.content? b = some (.ofBytes bytes))
    (hshort : bytes.length ≤ svc.byteLimit.toNat) :
    svc.made source b =
      .ok (textNode b
        (truncateText svc.config.maxContentLength (Text.Utf8.decodeLossy bytes))) := by
  have hbytes : (Stream.ofBytes bytes).bytes = bytes := by simp [Stream.bytes, Stream.ofBytes]
  have hends : ¬ ((Stream.ofBytes bytes).failure.isSome ∧
      (Stream.ofBytes bytes).bytes.length < svc.byteLimit.toNat) := by
    simp [Stream.ofBytes]
  unfold made
  rw [if_neg (by simp [hkind]), hcontent]
  dsimp only
  rw [generate_plainText hkind hname, plainTextPreview_eq, if_neg hends, hbytes,
    List.take_of_length_le hshort]

/-- A text under the name of an archive is an error, whatever its content. -/
theorem made_mislabelled (svc : Service) {stream : Stream} (hkind : b.kind = .plainText)
    (hname : hasArchiveExtension b.nameOrEmpty = true)
    (hcontent : source.content? b = some stream) :
    svc.made source b = .error (.mislabelled b.nameOrEmpty b.mimeType) := by
  unfold made
  rw [if_neg (by simp [hkind]), hcontent]
  dsimp only
  rw [generate_mislabelled hkind hname]

/-! ## The operations -/

section Operations

variable {σ α : Type} {s : ServiceState σ}

theorem onStore_run (action : StoreM σ α) (s : ServiceState σ) :
    (onStore action).run.run s = ((action.run.run s.store).1.mapError .store,
      { s with store := (action.run.run s.store).2 }) := by
  unfold onStore
  rw [run_bind_ok (run_get s)]
  rcases hrun : action.run.run s.store with ⟨e | a, store⟩
  all_goals
    rw [show action.run s.store = _ from hrun]
    rfl

theorem onStore_ok {action : StoreM σ α} {a : α} {store : σ}
    (h : action.run.run s.store = (.ok a, store)) :
    (onStore action).run.run s = (.ok a, { s with store }) := by
  rw [onStore_run, h]
  rfl

theorem onStore_error {action : StoreM σ α} {e : StoreError} {store : σ}
    (h : action.run.run s.store = (.error e, store)) :
    (onStore action).run.run s = (.error (.store e), { s with store }) := by
  rw [onStore_run, h]
  rfl

theorem onScratch_run (action : ScratchM (Except PreviewError α)) (s : ServiceState σ) :
    (onScratch action).run.run s =
      ((action.run s.scratch).1, { s with scratch := (action.run s.scratch).2 }) := by
  unfold onScratch
  rw [run_bind_ok (run_get s)]
  cases hrun : action.run s.scratch with
  | mk answer scratch => cases answer <;> rfl

/-- A generation gives what the source holds, and leaves the store as it is. -/
theorem generateFrom_run (svc : Service) (source : Source) (b : Bitstream)
    (s : ServiceState σ) :
    ∃ opens ledger, (svc.generateFrom source b).run.run s =
      (svc.made source b, ⟨s.store, opens, ledger⟩) := by
  unfold generateFrom made
  by_cases hkind : b.kind = .unsupported
  · rw [if_pos hkind, if_pos hkind]
    exact ⟨s.opens, s.scratch, rfl⟩
  · rw [if_neg hkind, if_neg hkind]
    have hopen : (openContent source b).run.run s =
        (.ok (source.content? b), { s with opens := s.opens + 1 }) := rfl
    cases hcontent : source.content? b with
    | none =>
        rw [hcontent] at hopen
        exact ⟨s.opens + 1, s.scratch, run_bind_ok hopen⟩
    | some stream =>
        rw [hcontent] at hopen
        refine ⟨s.opens + 1, ((svc.generate b stream).run s.scratch).2, ?_⟩
        rw [run_bind_ok hopen]
        dsimp only
        rw [onScratch_run, generate_answer stream s.scratch {}]

section Denied

variable [Store σ] (svc : Service) (source : Source) (b : Bitstream) (s : ServiceState σ)

/-! Where the gate does not admit the caller, nothing is asked of the store. -/

theorem getOrGenerate_of_denied (hgate : svc.canPreview b = false) :
    (svc.getOrGenerate source b).run.run s = (.ok [], s) := by
  unfold getOrGenerate
  rw [hgate]
  rfl

theorem ensure_of_denied (hgate : svc.canPreview b = false) :
    (svc.ensure source b).run.run s = (.ok .denied, s) := by
  unfold ensure
  rw [hgate]
  rfl

end Denied

/-- A sweep goes on behind its first entry with the report on that entry. -/
theorem sweepFrom_cons [Store σ] (svc : Service) (source : Source) (b : Bitstream)
    (rest : List Bitstream) (report : SweepReport) (sent : List SweepProgress)
    (s : ServiceState σ) :
    (svc.sweepFrom source (b :: rest) report sent).run s =
      (svc.sweepFrom source rest (report.note b ((svc.ensure source b).run.run s).1)
        (sent ++ ((report.note b ((svc.ensure source b).run.run s).1).message? b).toList)).run
        ((svc.ensure source b).run.run s).2 := rfl

end Operations

section Memory

variable (svc : Service) (source : Source) (b : Bitstream) (i : BitstreamId)
  (s : ServiceState Memory)

theorem hasPreview_run :
    (onStore (Store.hasPreview i) : ServiceM Memory Bool).run.run s = (.ok (s.store.has i), s) :=
  onStore_ok (Memory.run_hasPreview s.store i)

/-- The stored preview is shown as it is, and nothing changes. -/
theorem storedPreview_run :
    (storedPreview i : ServiceM Memory (List View)).run.run s =
      (.ok ((s.store.shown? i).getD []), s) := by
  unfold storedPreview
  rw [run_bind_ok (onStore_ok (Memory.run_findRoots s.store i))]
  unfold Memory.roots Memory.shown?
  cases s.store.trees.lookup i <;> rfl

/-- Storing a preview numbers and inserts its trees. -/
theorem persist_run (roots : List View) :
    ∃ answer, (persist i roots : ServiceM Memory InsertOutcome).run.run s =
        (.ok answer, { s with store := s.store.keep i roots }) ∧
      (s.store.has i = false → answer = .inserted) := by
  let m := s.store.advanceBy (View.totalNodes roots)
  let stored := View.numberedRoots i s.store.nextId roots
  refine ⟨m.insertAnswer i stored, ?_, ?_⟩
  · unfold persist
    rw [run_bind_ok (onStore_ok (View.mapM_toStored_run i roots s.store)),
      onStore_ok (Memory.run_insertTree m i stored)]
    rfl
  · intro hhas
    have hlookup : m.trees.lookup i = none := Memory.has_eq_false.1 hhas
    unfold Memory.insertAnswer
    rw [hlookup]
    exact ite_self _

/-! ### The preview to show -/

/-- A preview that is stored is the preview to show: nothing is opened and nothing
changes. -/
theorem getOrGenerate_of_shown {roots : List View} (hgate : svc.canPreview b = true)
    (hshown : s.store.shown? b.id = some roots) :
    (svc.getOrGenerate source b).run.run s = (.ok roots, s) := by
  unfold getOrGenerate
  rw [hgate, if_neg (by simp), run_bind_ok (hasPreview_run b.id s),
    if_pos (Memory.has_of_shown hshown), storedPreview_run, hshown]
  rfl

/-- Nothing is made on a page load unless the settings say so. -/
theorem getOrGenerate_of_off (hgate : svc.canPreview b = true)
    (hhas : s.store.has b.id = false) (hoff : svc.config.generateOnPageLoad = false) :
    (svc.getOrGenerate source b).run.run s = (.ok [], s) := by
  unfold getOrGenerate
  rw [hgate, if_neg (by simp), run_bind_ok (hasPreview_run b.id s), if_neg (by simp [hhas]), hoff]
  rfl

/-- A preview that is missing is made, and stored if it may be. -/
theorem getOrGenerate_of_missing (hgate : svc.canPreview b = true)
    (hhas : s.store.has b.id = false) (hon : svc.config.generateOnPageLoad = true) :
    ∃ opens ledger, (svc.getOrGenerate source b).run.run s =
      (svc.made source b,
        ⟨s.store.fill b.id (svc.keepable? source b), opens, ledger⟩) := by
  obtain ⟨opens, ledger, hmade⟩ := generateFrom_run svc source b s
  refine ⟨opens, ledger, ?_⟩
  unfold getOrGenerate
  rw [hgate, if_neg (by simp), run_bind_ok (hasPreview_run b.id s), if_neg (by simp [hhas]),
    if_neg (by simp [hon])]
  cases hroots : svc.made source b with
  | error e =>
      rw [hroots] at hmade
      rw [run_bind_error hmade, keepable?_of_error hroots, Memory.fill_none]
  | ok roots =>
      rw [hroots] at hmade
      rw [run_bind_ok hmade, keepable?_of_ok hgate hroots]
      by_cases hleft : (roots.isEmpty || !b.kind.isPersistable) = true
      · rw [if_pos hleft, if_pos hleft, Memory.fill_none]
        rfl
      · obtain ⟨answer, hpersist, hinserted⟩ := persist_run b.id ⟨s.store, opens, ledger⟩ roots
        rw [hinserted hhas] at hpersist
        rw [if_neg hleft, if_neg hleft, run_bind_ok hpersist, Memory.fill_some hhas]
        rfl

/-- The store after a preview was asked for. -/
theorem getOrGenerate_store :
    ((svc.getOrGenerate source b).run.run s).2.store =
      s.store.fill b.id
        (if svc.config.generateOnPageLoad then svc.keepable? source b else none) := by
  cases hgate : svc.canPreview b with
  | false =>
      rw [getOrGenerate_of_denied svc source b s hgate, keepable?_of_denied hgate, ite_self,
        Memory.fill_none]
  | true =>
      cases hshown : s.store.shown? b.id with
      | some roots =>
          rw [getOrGenerate_of_shown svc source b s hgate hshown, Memory.fill_of_shown hshown]
      | none =>
          have hhas := s.store.shown?_eq_none.1 hshown
          cases hload : svc.config.generateOnPageLoad with
          | false =>
              rw [getOrGenerate_of_off svc source b s hgate hhas hload]
              exact (Memory.fill_none _ _).symm
          | true =>
              obtain ⟨opens, ledger, hrun⟩ :=
                getOrGenerate_of_missing svc source b s hgate hhas hload
              rw [hrun]
              rfl

/-! ### Making sure of a preview -/

/-- What becomes of a bitstream without a preview. -/
def verdict : Except PreviewError Outcome :=
  if b.kind = .unsupported then .ok .empty
  else if !b.kind.isPersistable then .ok .transient
  else (svc.made source b).map fun roots =>
    if roots.isEmpty then .empty else .stored (View.totalNodes roots)

theorem ensure_of_shown {roots : List View} (hgate : svc.canPreview b = true)
    (hshown : s.store.shown? b.id = some roots) :
    (svc.ensure source b).run.run s = (.ok .existing, s) := by
  unfold ensure
  rw [hgate, if_neg (by simp), run_bind_ok (hasPreview_run b.id s),
    if_pos (Memory.has_of_shown hshown)]
  rfl

/-- A preview that is missing is made and stored, if there is one to store. -/
theorem ensure_of_missing (hgate : svc.canPreview b = true) (hhas : s.store.has b.id = false) :
    ∃ opens ledger, (svc.ensure source b).run.run s =
      (svc.verdict source b,
        ⟨s.store.fill b.id (svc.keepable? source b), opens, ledger⟩) := by
  unfold ensure verdict
  rw [hgate, if_neg (by simp), run_bind_ok (hasPreview_run b.id s), if_neg (by simp [hhas])]
  by_cases hunsupported : b.kind = .unsupported
  · rw [if_pos hunsupported, if_pos hunsupported,
      keepable?_of_not_isPersistable (by rw [hunsupported]; rfl), Memory.fill_none]
    exact ⟨s.opens, s.scratch, rfl⟩
  · rw [if_neg hunsupported, if_neg hunsupported]
    cases hkind : b.kind.isPersistable with
    | false =>
        rw [keepable?_of_not_isPersistable hkind, Memory.fill_none]
        exact ⟨s.opens, s.scratch, rfl⟩
    | true =>
        obtain ⟨opens, ledger, hmade⟩ := generateFrom_run svc source b s
        refine ⟨opens, ledger, ?_⟩
        rw [if_neg (by simp), if_neg (by simp)]
        cases hroots : svc.made source b with
        | error e =>
            rw [hroots] at hmade
            rw [run_bind_error hmade, keepable?_of_error hroots, Memory.fill_none]
            rfl
        | ok roots =>
            rw [hroots] at hmade
            rw [run_bind_ok hmade, keepable?_of_ok hgate hroots, hkind]
            by_cases hempty : roots.isEmpty = true
            · rw [if_pos hempty, if_pos (by simp [hempty]), Memory.fill_none]
              simp only [Except.map, hempty]
              rfl
            · obtain ⟨answer, hpersist, hinserted⟩ :=
                persist_run b.id ⟨s.store, opens, ledger⟩ roots
              rw [hinserted hhas] at hpersist
              rw [if_neg hempty, if_neg (by simp [hempty]), run_bind_ok hpersist,
                Memory.fill_some hhas]
              simp only [Except.map, hempty]
              rfl

/-- The store after it was made sure of a preview. -/
theorem ensure_store :
    ((svc.ensure source b).run.run s).2.store =
      s.store.fill b.id (svc.keepable? source b) := by
  cases hgate : svc.canPreview b with
  | false =>
      rw [ensure_of_denied svc source b s hgate, keepable?_of_denied hgate, Memory.fill_none]
  | true =>
      cases hshown : s.store.shown? b.id with
      | some roots =>
          rw [ensure_of_shown svc source b s hgate hshown, Memory.fill_of_shown hshown]
      | none =>
          obtain ⟨opens, ledger, hrun⟩ :=
            ensure_of_missing svc source b s hgate (s.store.shown?_eq_none.1 hshown)
          rw [hrun]

/-! ### Deleting and sweeping -/

theorem delete_of_admin (hadmin : svc.gate.isAdmin = true) :
    (svc.delete i).run.run s =
      (.ok (StoredNode.totalNodes (s.store.roots i)), { s with store := s.store.erase i }) := by
  unfold delete
  rw [hadmin, if_neg (by simp)]
  exact onStore_ok (Memory.run_deleteTree s.store i)

theorem delete_of_not_admin (hadmin : svc.gate.isAdmin = false) :
    (svc.delete i).run.run s = (.error (.forbidden i), s) := by
  unfold delete
  rw [hadmin]
  rfl

theorem sweepFrom_store (bs : List Bitstream) (report : SweepReport)
    (sent : List SweepProgress) :
    ((svc.sweepFrom source bs report sent).run s).2.store =
      bs.foldl (fun m b => m.fill b.id (svc.keepable? source b)) s.store := by
  induction bs generalizing s report sent with
  | nil => rfl
  | cons b rest ih =>
      rw [List.foldl_cons, ← ensure_store]
      exact ih _ _ _

/-- The store after a sweep. -/
theorem sweep_store (bs : List Bitstream) :
    ((svc.sweep source bs).run s).2.store =
      bs.foldl (fun m b => m.fill b.id (svc.keepable? source b)) s.store :=
  sweepFrom_store svc source s bs {} []

/-- What a sweep leaves under an identifier: what was there, or else what the first
bitstream with that identifier gives that has something to keep. -/
theorem shown?_foldl_fill (bs : List Bitstream) (m : Memory) :
    (bs.foldl (fun m b => m.fill b.id (svc.keepable? source b)) m).shown? i =
      (m.shown? i).or
        (bs.findSome? fun b => if b.id = i then svc.keepable? source b else none) := by
  induction bs generalizing m with
  | nil => simp
  | cons b rest ih =>
      rw [List.foldl_cons, ih, m.shown?_fill fun roots => keepable?_ne_nil, Option.or_assoc,
        List.findSome?_cons]
      cases (if b.id = i then svc.keepable? source b else none) <;> rfl

theorem shown?_sweep (bs : List Bitstream) :
    ((svc.sweep source bs).run s).2.store.shown? i = (s.store.shown? i).or
      (bs.findSome? fun b => if b.id = i then svc.keepable? source b else none) := by
  rw [sweep_store, shown?_foldl_fill]

end Memory

end Service

end ContentPreview
