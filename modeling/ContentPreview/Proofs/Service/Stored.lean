import ContentPreview.Proofs.ArchivePreview
import ContentPreview.Proofs.Service.Run
import ContentPreview.Proofs.Service.Sweeping
import ContentPreview.Proofs.Store.History
import ContentPreview.Proofs.Tree.WellFormed

/-!
# What a run of a service stores

The bounds of a preview are kept in three places: a text is cut when it is read, a
listing before it becomes a tree, and kinds without a preview to keep are turned
away before anything is made.  What stands in the store after any run has come
through one of them.

Three facts are put together.  A stored tree is the numbered form of a preview
(`IsNumbered`, which every call keeps).  A preview that is shown after a run was
stored by one of its calls and has been there since (`exists_storedBy`).  And what
a call may store is either one bounded text or the tree of a limited listing.

## Main definitions

* `Request.Asks` — which bitstreams a request may store a preview of.
* `StoredBy` — a call of a run stored what is shown ever since.
* `WithinLimits` — the limits on a stored preview.

## Main results

* `Call.perform_induction` — what filling and erasing keep, every call keeps.
* `exists_storedBy` — where a shown preview comes from.
* `stored_within_limits` — everything stored is within the limits.
-/

namespace ContentPreview

/-! ## Numbered trees in a store -/

/-- The memory is a map, and every tree in it is the numbered form of a preview. -/
structure Memory.IsNumbered (m : Memory) : Prop where
  isMap : m.IsMap
  numbered : ∀ entry ∈ m.trees, ∃ n views, entry.2 = View.numberedRoots entry.1 n views

namespace Memory

variable {m : Memory} {i : BitstreamId}

theorem mem_trees_insert {roots : List StoredNode} {entry : BitstreamId × List StoredNode}
    (h : entry ∈ (m.insert i roots).trees) : entry ∈ m.trees ∨ entry = (i, roots) := by
  unfold insert at h
  split at h
  case isTrue => exact Or.inl h
  case isFalse => simpa using h

theorem IsNumbered.fill (h : m.IsNumbered) (i : BitstreamId) (found? : Option (List View)) :
    (m.fill i found?).IsNumbered := by
  unfold Memory.fill
  split
  case isTrue => exact h
  case isFalse =>
    cases found? with
    | none => exact h
    | some views =>
        refine ⟨(h.isMap.advanceBy _).insert _ _, ?_⟩
        intro entry hentry
        rcases mem_trees_insert hentry with hold | rfl
        · exact h.numbered entry hold
        · exact ⟨m.nextId, views, rfl⟩

theorem IsNumbered.erase (h : m.IsNumbered) (i : BitstreamId) : (m.erase i).IsNumbered where
  isMap := h.isMap.erase i
  numbered := fun entry hentry => h.numbered entry (List.mem_filter.1 hentry).1

/-- A stored tree is the numbered form of what is shown. -/
theorem IsNumbered.shown (h : m.IsNumbered) {roots : List StoredNode}
    (hmem : (i, roots) ∈ m.trees) :
    ∃ n views, roots = View.numberedRoots i n views ∧ m.shown? i = some views := by
  obtain ⟨n, views, hnumbered⟩ := h.numbered _ hmem
  have hroots : roots = View.numberedRoots i n views := hnumbered
  refine ⟨n, views, hroots, ?_⟩
  unfold shown?
  rw [Keyed.lookup_of_mem h.isMap.keys hmem, Option.map_some, hroots,
    View.map_toView_numberedRoots]

end Memory

/-- A property of the store that filling and erasing keep is kept by every call.  A sweep
fills once for each bitstream. -/
theorem Call.perform_induction {P : Memory → Prop}
    (hfill : ∀ m i found?, P m → P (Memory.fill m i found?))
    (herase : ∀ m i, P m → P (m.erase i)) (c : Call) {s : ServiceState Memory}
    (h : P s.store) : P (c.perform.run s).2.store := by
  obtain ⟨svc, request⟩ := c
  unfold perform
  cases request with
  | page source b =>
      dsimp only
      rw [run_map, Service.getOrGenerate_store]
      exact hfill _ _ _ h
  | ensure source b =>
      dsimp only
      rw [run_map, Service.ensure_store]
      exact hfill _ _ _ h
  | stored i =>
      dsimp only
      rw [run_map, Service.storedPreview_run]
      exact h
  | generate b stream =>
      dsimp only
      rw [run_map, Service.onScratch_run]
      exact h
  | delete i =>
      dsimp only
      rw [run_map]
      cases hadmin : svc.gate.isAdmin with
      | false =>
          rw [Service.delete_of_not_admin svc i s hadmin]
          exact h
      | true =>
          rw [Service.delete_of_admin svc i s hadmin]
          exact herase _ _ h
  | sweep source bs =>
      dsimp only
      rw [run_map, Service.sweep_store]
      generalize s.store = m at h
      induction bs generalizing m with
      | nil => exact h
      | cons b rest ih => exact ih _ (hfill _ _ _ h)

theorem isNumbered_perform (c : Call) {s : ServiceState Memory} (h : s.store.IsNumbered) :
    (c.perform.run s).2.store.IsNumbered :=
  c.perform_induction (fun _ i found? hm => hm.fill i found?) (fun _ i hm => hm.erase i) h

theorem isNumbered_performAll (calls : List Call) {s : ServiceState Memory}
    (h : s.store.IsNumbered) : ((performAll calls).run s).2.store.IsNumbered :=
  historyOf_keeps (P := fun s : ServiceState Memory => s.store.IsNumbered)
    (fun c _ hs => isNumbered_perform c hs) calls h

/-! ## Where a stored preview comes from -/

/-- The bitstreams of which a request may store a preview, each with its source. -/
inductive Request.Asks : Request → Source → Bitstream → Prop where
  | page (source : Source) (b : Bitstream) : Asks (.page source b) source b
  | ensure (source : Source) (b : Bitstream) : Asks (.ensure source b) source b
  | sweep (source : Source) {bs : List Bitstream} {b : Bitstream} (h : b ∈ bs) :
      Asks (.sweep source bs) source b

theorem Call.offers_of_keeps {c : Call} {i : BitstreamId} {views : List View}
    (h : c.keeps? i = some views) :
    ∃ source b, c.request.Asks source b ∧ b.id = i ∧ c.service.Offers source b views := by
  obtain ⟨svc, request⟩ := c
  unfold Call.keeps? at h
  cases request with
  | page source b =>
      dsimp only at h
      rw [Option.ite_none_right_eq_some] at h
      exact ⟨source, b, .page source b, h.1.1, Service.keepable?_eq_some_iff.1 h.2⟩
  | ensure source b =>
      dsimp only at h
      rw [Option.ite_none_right_eq_some] at h
      exact ⟨source, b, .ensure source b, h.1, Service.keepable?_eq_some_iff.1 h.2⟩
  | sweep source bs =>
      obtain ⟨b, hb, hkeep⟩ := List.exists_of_findSome?_eq_some h
      rw [Option.ite_none_right_eq_some] at hkeep
      exact ⟨source, b, .sweep source hb, hkeep.1, Service.keepable?_eq_some_iff.1 hkeep.2⟩
  | stored i => cases h
  | generate b stream => cases h
  | delete i => cases h

/-- The call `c`, made after the calls `before`, stores a preview where there is
none, and it is shown after each of the calls `later`. -/
structure StoredBy (s : ServiceState Memory) (before : List Call) (c : Call)
    (later : List Call) (i : BitstreamId) (views : List View) : Prop where
  free : ((performAll before).run s).2.store.has i = false
  keeps : c.keeps? i = some views
  since : ∀ middle, middle <+: later →
    ((performAll (before ++ c :: middle)).run s).2.store.shown? i = some views

/-- A preview that is shown after a run was shown all the time or stored by one of
its calls. -/
theorem exists_storedBy {calls : List Call} {s : ServiceState Memory} {i : BitstreamId}
    {views : List View} (h : ((performAll calls).run s).2.store.shown? i = some views) :
    (∀ middle, middle <+: calls →
      ((performAll middle).run s).2.store.shown? i = some views) ∨
      ∃ before c later, calls = before ++ c :: later ∧ StoredBy s before c later i views := by
  induction calls generalizing s with
  | nil =>
      left
      intro middle hmiddle
      rwa [List.prefix_nil.1 hmiddle]
  | cons c rest ih =>
      rw [performAll_cons] at h
      rcases ih h with hkept | ⟨before, d, later, hcalls, hstored⟩
      · have hnow : (c.perform.run s).2.store.shown? i = some views := hkept [] List.nil_prefix
        have hstep := shown?_perform (c := c) (s := s) (i := i) fun hremoves => by
          rw [shown?_perform_removal hremoves] at hnow
          cases hnow
        rw [hnow] at hstep
        cases hshown : s.store.shown? i with
        | some found =>
            left
            rw [hshown, Option.some_or] at hstep
            intro middle hmiddle
            rcases List.prefix_cons_iff.1 hmiddle with rfl | ⟨middle, rfl, hrest⟩
            · exact hshown.trans hstep.symm
            · exact hkept middle hrest
        | none =>
            right
            rw [hshown, Option.none_or] at hstep
            exact ⟨[], c, rest, rfl, (Memory.shown?_eq_none _).1 hshown, hstep.symm, hkept⟩
      · right
        exact ⟨c :: before, d, later, by rw [hcalls]; rfl, hstored.free, hstored.keeps,
          hstored.since⟩

/-! ## What may be stored -/

/-- The limits on the stored preview of a bitstream of a kind. -/
structure WithinLimits (bounds : Bounds) (kind : Kind) (roots : List StoredNode) : Prop where
  nonempty : roots ≠ []
  names : (roots.map StoredNode.name).Nodup
  nodes : ∀ node ∈ roots.flatMap StoredNode.nodes, node.IsWellFormed
  leaves : (roots.flatMap StoredNode.nodes).countP (!·.isDirectory) ≤ bounds.maxLeafCount + 1
  content : ∀ node ∈ roots.flatMap StoredNode.nodes,
    node.content.length ≤ bounds.maxContentLength
  archive : kind.isArchive = true → ∀ node ∈ roots.flatMap StoredNode.nodes, node.content = ""
  text : kind.isArchive = false → ∃ root, roots = [root] ∧ root.isDirectory = false

section Limits

variable {bounds : Bounds} {i : BitstreamId} {n : Nat}

theorem withinLimits_text {name content : String}
    (hlength : content.length ≤ bounds.maxContentLength) :
    WithinLimits bounds .plainText (View.numberedRoots i n [View.text name content]) where
  nonempty := nofun
  names := List.nodup_cons.2 ⟨List.not_mem_nil, List.nodup_nil⟩
  nodes := by
    intro node hnode
    rw [List.mem_singleton.1 hnode]
    exact View.isWellFormed_text name content i n
  leaves := Nat.le_add_left 1 _
  content := by
    intro node hnode
    rw [List.mem_singleton.1 hnode]
    exact hlength
  archive := nofun
  text := fun _ => ⟨_, rfl, rfl⟩

theorem withinLimits_canonical {kind : Kind} (hkind : kind.isArchive = true) {views : List View}
    (hne : views ≠ []) (hcanonical : View.AreCanonical views)
    (hleaves : View.totalLeaves views ≤ bounds.maxLeafCount + 1) :
    WithinLimits bounds kind (View.numberedRoots i n views) := by
  have hforest := Forest.canonical_ofRoots_iff.2 hcanonical
  have hnodes : ∀ node ∈ (View.numberedRoots i n views).flatMap StoredNode.nodes,
      node.IsWellFormed ∧ node.content = "" := by
    intro node hnode
    rw [View.flatMap_nodes_numberedRoots] at hnode
    obtain ⟨part, k, hpart, rfl⟩ := View.of_mem_nodesAmong hforest.nodes hnode
    exact hpart.isWellFormed i k
  constructor
  case nonempty =>
    rw [← List.isEmpty_eq_false_iff, View.isEmpty_numberedRoots, List.isEmpty_eq_false_iff]
    exact hne
  case names =>
    rw [View.map_name_numberedRoots]
    exact hcanonical.1
  case nodes => exact fun node hnode => (hnodes node hnode).1
  case leaves =>
    rw [View.flatMap_nodes_numberedRoots, View.countP_nodesAmong hforest.nodes,
      ← View.totalLeaves_map_snd, Forest.map_snd_ofRoots]
    exact hleaves
  case content =>
    intro node hnode
    rw [(hnodes node hnode).2]
    exact Nat.zero_le _
  case archive => exact fun _ node hnode => (hnodes node hnode).2
  case text =>
    intro hnot
    rw [hkind] at hnot
    cases hnot

end Limits

theorem Kind.eq_plainText (kind : Kind) (hkept : kind.isPersistable = true)
    (hformat : kind.archiveFormat = none) : kind = .plainText := by
  cases kind with
  | plainText => rfl
  | html => cases hkept
  | unsupported => cases hkept
  | zipArchive => cases hformat
  | tarArchive compression => cases hformat

namespace Service

variable {svc : Service} {source : Source} {b : Bitstream} {views : List View}

theorem marker_lt_of_create {config : Config} {policy : Policy} {extractor : Extractor}
    (h : create config policy extractor = .ok svc) :
    truncationMarker.length < config.maxContentLength := by
  unfold create Config.checked Config.fault? at h
  by_cases hsmall : config.maxContentLength ≤ truncationMarker.length
  · simp [hsmall] at h
  · omega

/-- A text that is offered was cut to the bound. -/
theorem Offers.plainText (h : svc.Offers source b views) (hkind : b.kind = .plainText) :
    ∃ content, views =
      [View.text b.nameOrEmpty (truncateText svc.config.maxContentLength content)] := by
  obtain ⟨stream, -, hmade⟩ := h.opened
  have hanswer := hmade {}
  cases hname : hasArchiveExtension b.nameOrEmpty with
  | true =>
      unfold generate at hanswer
      rw [hkind] at hanswer
      simp only [hname] at hanswer
      cases hanswer
  | false =>
      rw [generate_plainText hkind hname, plainTextPreview_eq] at hanswer
      by_cases hbroken : stream.failure.isSome ∧ stream.bytes.length < svc.byteLimit.toNat
      · rw [if_pos hbroken, Except.ok.injEq] at hanswer
        exact absurd hanswer.symm h.nonempty
      · rw [if_neg hbroken, Except.ok.injEq] at hanswer
        exact ⟨_, hanswer.symm⟩

/-- A tree that is offered is that of a limited listing. -/
theorem Offers.archive (h : svc.Offers source b views) {format : ArchiveFormat}
    (hformat : b.kind.archiveFormat = some format) :
    ∃ records, views = materialize (limitLeaves svc.config.maxLeafCount records) := by
  obtain ⟨stream, -, hmade⟩ := h.opened
  have hanswer := hmade {}
  rw [generate_archive hformat, Except.ok.injEq] at hanswer
  exact ⟨_, hanswer.symm⟩

theorem Offers.kind_ne (h : svc.Offers source b views) :
    b.kind ≠ .html ∧ b.kind ≠ .unsupported := by
  have hkind := h.persistable
  refine ⟨?_, h.supported⟩
  intro hhtml
  rw [hhtml] at hkind
  cases hkind

/-- What an accepted service offers is within the limits once it is numbered. -/
theorem Offers.withinLimits {config : Config} {policy : Policy} {extractor : Extractor}
    (haccepted : create config policy extractor = .ok svc) (h : svc.Offers source b views)
    (i : BitstreamId) (n : Nat) :
    WithinLimits config.toBounds b.kind (View.numberedRoots i n views) := by
  have hconfig : svc.config = config := config_of_create haccepted
  have hmarker := marker_lt_of_create haccepted
  cases hformat : b.kind.archiveFormat with
  | some format =>
      obtain ⟨records, rfl⟩ := h.archive hformat
      refine withinLimits_canonical (by rw [Kind.isArchive, hformat]; rfl) h.nonempty
        (areCanonical_materialize _) ?_
      rw [hconfig]
      exact Nat.le_trans (totalLeaves_materialize_le _) (leafTotal_limitLeaves_le _ _)
  | none =>
      have hkind := b.kind.eq_plainText h.persistable hformat
      obtain ⟨content, rfl⟩ := h.plainText hkind
      rw [hkind, hconfig]
      exact withinLimits_text (length_truncateText_le (by omega) content)

end Service

/-- **Everything stored is bounded and well formed.**  After any run of services with
one accepted configuration, whoever calls and whatever the sources hold, a stored
tree is within the limits.  It is the preview that one call of the run made of one
bitstream, which is neither a page nor unsupported, at a time when nothing was
stored for it, and that has been shown ever since. -/
theorem stored_within_limits {config : Config} {calls : List Call}
    (haccepted : ∀ c ∈ calls,
      Service.create config c.service.policy c.service.extractor = .ok c.service)
    {i : BitstreamId} {roots : List StoredNode}
    (hstored : (i, roots) ∈ ((performAll calls).run fresh).2.store.trees) :
    ∃ before c later source b, calls = before ++ c :: later ∧ c.request.Asks source b ∧
      b.id = i ∧ b.kind ≠ .html ∧ b.kind ≠ .unsupported ∧
      c.service.Offers source b (roots.map StoredNode.toView) ∧
      StoredBy fresh before c later i (roots.map StoredNode.toView) ∧
      WithinLimits config.toBounds b.kind roots := by
  have hfresh : fresh.store.IsNumbered := ⟨⟨List.nodup_nil, nofun⟩, nofun⟩
  obtain ⟨n, views, rfl, hshown⟩ := (isNumbered_performAll calls hfresh).shown hstored
  rw [View.map_toView_numberedRoots]
  rcases exists_storedBy hshown with hkept | ⟨before, c, later, hcalls, hby⟩
  · cases hkept [] List.nil_prefix
  · obtain ⟨source, b, hasks, hid, hoffers⟩ := Call.offers_of_keeps hby.keeps
    have hc : c ∈ calls := by simp [hcalls]
    exact ⟨before, c, later, source, b, hcalls, hasks, hid, hoffers.kind_ne.1,
      hoffers.kind_ne.2, hoffers, hby, hoffers.withinLimits (haccepted c hc) i n⟩

/-- A sweep over a page and an archive of two files, of which one may be shown. -/
theorem stored_within_limits_sweep :
    let svc : Service := ⟨⟨⟨1, 20⟩, true, false⟩, .unrestricted, {}⟩
    let page : Bitstream := ⟨"page", none, "text/html", 1⟩
    let zip : Bitstream := ⟨"zip", some "a.zip", "application/zip", 2⟩
    let source := Source.ofStreams
      [("page", .ofBytes [60, 112, 62]), ("zip", .ofBytes Service.awkwardArchive)]
    let m := ((performAll [⟨svc, .sweep source [page, zip]⟩]).run fresh).2.store
    m.has "page" = false ∧
      ((m.roots "zip").flatMap StoredNode.nodes).countP (!·.isDirectory) = 2 ∧
      WithinLimits ⟨1, 20⟩ .zipArchive (m.roots "zip") := by
  intro svc page zip source m
  obtain ⟨hpage, hzip, hleaves⟩ : m.has "page" = false ∧ m.has "zip" = true ∧
      ((m.roots "zip").flatMap StoredNode.nodes).countP (!·.isDirectory) = 2 := by
    decide +kernel
  obtain ⟨roots, hlookup⟩ := Option.isSome_iff_exists.1 hzip
  have hroots : m.roots "zip" = roots := by rw [Memory.roots, hlookup, Option.getD_some]
  refine ⟨hpage, hleaves, ?_⟩
  rw [hroots]
  have haccepted : ∀ c ∈ [(⟨svc, .sweep source [page, zip]⟩ : Call)],
      Service.create ⟨⟨1, 20⟩, true, false⟩ c.service.policy c.service.extractor =
        .ok c.service := by
    intro c hc
    rw [List.mem_singleton.1 hc]
    rfl
  obtain ⟨before, c, later, _, b, hcalls, hasks, hid, -, -, -, -, hlimits⟩ :=
    stored_within_limits haccepted (Keyed.mem_of_lookup hlookup)
  have hc : c = ⟨svc, .sweep source [page, zip]⟩ := by
    have hmem : c ∈ before ++ c :: later := by simp
    rw [← hcalls] at hmem
    exact List.mem_singleton.1 hmem
  subst hc
  cases hasks with
  | sweep _ hb =>
      have hne : b ≠ page := by
        rintro rfl
        exact absurd hid (by decide)
      have hb : b = zip := by simpa [hne] using hb
      have hkind : zip.kind = .zipArchive := by decide
      rwa [hb, hkind] at hlimits

end ContentPreview
