import ContentPreview.CommandLine.Run
import ContentPreview.Proofs.FileTree
import ContentPreview.Proofs.MimeGuess
import ContentPreview.Proofs.Service.Accounting
import ContentPreview.Proofs.Service.Mislabelled
import ContentPreview.Proofs.Service.Resweeping

/-!
# Sweeping a folder

Three parts of the program have to agree for a sweep of a folder to come out clean.  The
walk gives each file an identifier, and the source has to lead it back to that file.  The
name of the file decides what it is taken for, and a text must not have the name of an
archive.  And the store is fresh, so that whatever is found there was put there by the sweep.

They do agree, whatever the files are called and whatever is in them: content that
breaks or is no archive has nothing to show, but that is not a failure.  So each file
has one turn, and its outcome is decided by the master switch, by its name and by its
content.

## Main definitions

* `leafName` — the name of a file of a tree.
* `IsCleanSweep` — what a sweep of a tree reports.

## Main results

* `isMislabelled_of_mem_bitstreamsOf` — no file of a tree is a text under the name of an
  archive.
* `content?_of_mem_bitstreamsOf`, `pathOf_of_mem_bitstreamsOf` — each file is found again.
* `isCleanSweep_sweep` — the report on the files of a folder, whatever the source delivers.
* `sweep_of_folder` — the run on a host.
-/

namespace ContentPreview.CommandLine

open FileTree

/-- The name of a file of a tree. -/
def leafName (leaf : List String × Stream) : String := leaf.1.getLastD ""

/-- What a sweep of a tree over a fresh store reports, and the number of nodes in the store
afterwards. -/
structure IsCleanSweep (config : Config) (tree : FileTree) (report : SweepReport)
    (storedNodes : Nat) : Prop where
  processed : report.processed = tree.leaves.length
  failures : report.failures = []
  existing : report.existing = 0
  accounted :
    report.generated + report.denied + report.transient + report.empty = report.processed
  nodes : report.nodesStored = storedNodes
  off : config.previewEnabled = false →
    report.denied = report.processed ∧ report.generated = 0 ∧ storedNodes = 0
  on : config.previewEnabled = true →
    report.denied = 0 ∧
      report.transient = tree.leaves.countP fun leaf => guessMime (leafName leaf) = "text/html"

/-! ## The files as bitstreams -/

section Bitstreams

variable {tree : FileTree} {entries : List (String × FileTree)} {b : Bitstream}

theorem bitstreamAt_eq (path : String) (index : Nat) :
    bitstreamAt path index = ⟨path, some ((steps path).getLastD ""),
      guessMime ((steps path).getLastD ""), Int32.ofNat (min (index + 1) maxSequence)⟩ := by
  rw [bitstreamAt]

theorem map_id_bitstreamsOf (tree : FileTree) :
    (bitstreamsOf tree).map Bitstream.id = tree.files.map Prod.fst := by
  have hfirst : tree.files.map Prod.fst = (tree.files.zipIdx.map Prod.fst).map Prod.fst := by
    rw [List.zipIdx_map_fst]
  unfold bitstreamsOf
  rw [hfirst, List.map_map, List.map_map]
  rfl

theorem nodup_bitstreamsOf (h : (folder entries).IsProper) :
    ((bitstreamsOf (folder entries)).map Bitstream.id).Nodup := by
  rw [map_id_bitstreamsOf]
  exact nodup_paths h

theorem length_bitstreamsOf (h : tree.IsProper) :
    (bitstreamsOf tree).length = tree.leaves.length := by
  have hids := congrArg List.length (map_id_bitstreamsOf tree)
  rwa [List.length_map, List.length_map, files_eq h, List.length_map] at hids

/-- A bitstream of a tree stands for one of its files. -/
theorem exists_leaf_of_mem_bitstreamsOf (h : tree.IsProper) (hb : b ∈ bitstreamsOf tree) :
    ∃ leaf ∈ tree.leaves, b.id = joined leaf.1 := by
  have hid : b.id ∈ tree.files.map Prod.fst := by
    rw [← map_id_bitstreamsOf]
    exact List.mem_map_of_mem hb
  rw [files_eq h, List.map_map] at hid
  obtain ⟨leaf, hleaf, heq⟩ := List.mem_map.1 hid
  exact ⟨leaf, hleaf, heq.symm⟩

/-- The declared type of a bitstream of a tree is the one that its name suggests. -/
theorem mimeType_of_mem_bitstreamsOf (hb : b ∈ bitstreamsOf tree) :
    b.mimeType = guessMime b.nameOrEmpty := by
  obtain ⟨⟨⟨path, content⟩, index⟩, -, rfl⟩ := List.mem_map.1 hb
  dsimp only
  rw [bitstreamAt_eq, Bitstream.nameOrEmpty, Option.getD_some]

/-- The declared types of the files, one by one. -/
theorem map_mimeType_bitstreamsOf (h : (folder entries).IsProper) :
    (bitstreamsOf (folder entries)).map Bitstream.mimeType =
      (folder entries).leaves.map fun leaf => guessMime (leafName leaf) := by
  have htypes : (bitstreamsOf (folder entries)).map Bitstream.mimeType =
      ((bitstreamsOf (folder entries)).map Bitstream.id).map fun id =>
        guessMime ((steps id).getLastD "") := by
    unfold bitstreamsOf
    rw [List.map_map, List.map_map, List.map_map]
    refine List.map_congr_left fun entry _ => ?_
    simp only [Function.comp_apply, bitstreamAt_eq]
  rw [htypes, map_id_bitstreamsOf, files_eq h, List.map_map, List.map_map]
  refine List.map_congr_left fun leaf hleaf => ?_
  have hsteps := steps_joined (names_ne_nil_of_mem_leaves hleaf) (isEntryName_of_mem_leaves h hleaf)
  rw [Function.comp_apply, Function.comp_apply, hsteps, leafName]

/-- A file of a tree is not a text under the name of an archive. -/
theorem isMislabelled_of_mem_bitstreamsOf (hb : b ∈ bitstreamsOf tree) : ¬ b.IsMislabelled := by
  rintro ⟨htext, harchive⟩
  have hguess := mimeType_of_mem_bitstreamsOf hb
  have hplain : guessMime b.nameOrEmpty = "text/plain" := by
    rw [Bitstream.kind, hguess] at htext
    exact (kind_guessMime b.nameOrEmpty).2.1 htext
  rw [hasArchiveExtension_of_plain hplain] at harchive
  cases harchive

theorem kind_eq_html_iff (hb : b ∈ bitstreamsOf tree) :
    b.kind = .html ↔ b.mimeType = "text/html" := by
  rw [Bitstream.kind, mimeType_of_mem_bitstreamsOf hb]
  exact (kind_guessMime b.nameOrEmpty).1

/-- The content of a file of a tree is found under its identifier. -/
theorem content?_of_mem_bitstreamsOf (h : (folder entries).IsProper)
    (hb : b ∈ bitstreamsOf (folder entries)) :
    ∃ leaf ∈ (folder entries).leaves, b.id = joined leaf.1 ∧
      (Source.ofDirectory (folder entries)).content? b = some leaf.2 := by
  obtain ⟨leaf, hleaf, hid⟩ := exists_leaf_of_mem_bitstreamsOf h hb
  refine ⟨leaf, hleaf, hid, ?_⟩
  unfold Source.ofDirectory
  dsimp only
  rw [hid, escapes_of_mem_leaves h hleaf, if_neg Bool.false_ne_true,
    content?_of_mem_leaves h hleaf]

/-- No identifier of a file of a tree is refused below any directory. -/
theorem pathOf_of_mem_bitstreamsOf (h : (folder entries).IsProper)
    (hb : b ∈ bitstreamsOf (folder entries)) (root : String) :
    pathOf root b.id = .ok (joinPath root b.id) := by
  obtain ⟨leaf, hleaf, hid⟩ := exists_leaf_of_mem_bitstreamsOf h hb
  unfold pathOf
  rw [hid, escapes_of_mem_leaves h hleaf, if_neg Bool.false_ne_true]

end Bitstreams

/-! ## The report on a tree -/

section Report

variable {svc : Service} {entries : List (String × FileTree)}

/-- The state in which a sweep of a folder begins. -/
def fresh : ServiceState Memory := { store := {} }

/-- The report of a sweep of the files of a folder: every file has a turn of its own over a
store that does not know it. -/
theorem report_sweep_bitstreamsOf (source : Source) (h : (folder entries).IsProper) :
    ((svc.sweep source (bitstreamsOf (folder entries))).run fresh).1.1 =
      .ofTurns ((bitstreamsOf (folder entries)).map fun b => ⟨b, svc.reply source b false⟩) := by
  rw [← Service.turns_of_missing svc source fresh (nodup_bitstreamsOf h) fun _ _ => rfl]
  exact Service.report_sweep svc source fresh _

/-- All nodes that a sweep over a fresh store reports are in the store, and no others. -/
theorem nodesStored_sweep_fresh (source : Source) (bs : List Bitstream) :
    ((svc.sweep source bs).run fresh).1.1.nodesStored =
      ((svc.sweep source bs).run fresh).2.store.nodeCount := by
  have hcount := Books.nodeCount_sweepFrom svc source bs {} [] fresh
  have hnone : fresh.store.nodeCount = 0 := rfl
  rw [hnone, Nat.zero_add, Nat.add_zero] at hcount
  exact hcount.symm

/-- What becomes of a file of a tree, as far as the switch and its name decide that. -/
theorem reply_of_mem_bitstreamsOf (config : Config) {tree : FileTree} {b : Bitstream}
    (hb : b ∈ bitstreamsOf tree) (source : Source) :
    ∃ outcome,
      (⟨config, .unrestricted, {}⟩ : Service).reply source b false = .ok outcome ∧
        outcome ≠ .existing ∧ (outcome = .denied ↔ config.previewEnabled = false) ∧
        (config.previewEnabled = true → (outcome = .transient ↔ b.mimeType = "text/html")) := by
  let svc : Service := ⟨config, .unrestricted, {}⟩
  have hgate : svc.canPreview b = config.previewEnabled := Bool.and_true config.previewEnabled
  cases hswitch : config.previewEnabled with
  | false =>
      refine ⟨.denied, Service.reply_of_denied (hgate.trans hswitch) false, nofun, ?_, nofun⟩
      exact iff_of_true rfl rfl
  | true =>
      have hreply : svc.reply source b false = svc.verdict source b :=
        Service.reply_false (hgate.trans hswitch)
      have hpage := kind_eq_html_iff hb
      rcases Service.verdict_of_not_isMislabelled svc source (isMislabelled_of_mem_bitstreamsOf hb)
        with ⟨hverdict, hkind⟩ | ⟨hkind, hverdict | ⟨nodes, hverdict⟩⟩
      · refine ⟨.transient, hreply.trans hverdict, nofun, iff_of_false nofun nofun, fun _ => ?_⟩
        exact iff_of_true rfl (hpage.1 hkind)
      · refine ⟨.empty, hreply.trans hverdict, nofun, iff_of_false nofun nofun, fun _ => ?_⟩
        exact iff_of_false nofun fun hmime => hkind (hpage.2 hmime)
      · refine ⟨.stored nodes, hreply.trans hverdict, nofun, iff_of_false nofun nofun, fun _ => ?_⟩
        exact iff_of_false nofun fun hmime => hkind (hpage.2 hmime)

/-- The report on the files of a folder, from what becomes of each of them.  What the source
knows of them plays no role: a file may be gone or locked when its turn comes. -/
theorem isCleanSweep_sweep (config : Config) (source : Source) (h : (folder entries).IsProper) :
    let swept := ((⟨config, .unrestricted, {}⟩ : Service).sweep source
      (bitstreamsOf (folder entries))).run fresh
    IsCleanSweep config (folder entries) swept.1.1 swept.2.store.nodeCount := by
  intro whole
  let report := whole.1.1
  let bs := bitstreamsOf (folder entries)
  let turn (b : Bitstream) : Turn :=
    ⟨b, (⟨config, .unrestricted, {}⟩ : Service).reply source b false⟩
  have hreport : report = .ofTurns (bs.map turn) := report_sweep_bitstreamsOf source h
  have hnodes : report.nodesStored = whole.2.store.nodeCount := nodesStored_sweep_fresh source bs
  have hfate (b : Bitstream) (hb : b ∈ bs) := reply_of_mem_bitstreamsOf config hb source
  have hprocessed : report.processed = (folder entries).leaves.length := by
    rw [hreport, ← length_bitstreamsOf h]
    exact List.length_map turn
  have hfailures : report.failures = [] := by
    rw [hreport]
    refine List.filterMap_eq_nil_iff.2 fun t ht => ?_
    obtain ⟨b, hb, rfl⟩ := List.mem_map.1 ht
    obtain ⟨outcome, hreply, -⟩ := hfate b hb
    exact Turn.failure?_of_ok hreply
  have hexisting : report.existing = 0 := by
    rw [hreport]
    refine List.countP_eq_zero.2 fun t ht => ?_
    obtain ⟨b, hb, rfl⟩ := List.mem_map.1 ht
    obtain ⟨outcome, hreply, hexisting, -⟩ := hfate b hb
    rwa [Turn.endsIn_iff hreply]
  have haccounted := SweepReport.accounted_ofTurns (bs.map turn)
  rw [← hreport, hexisting, hfailures, List.length_nil] at haccounted
  refine ⟨hprocessed, hfailures, hexisting, by omega, hnodes, ?_, ?_⟩
  · intro hswitch
    have hdenied : report.denied = report.processed := by
      rw [hreport]
      refine List.countP_eq_length.2 fun t ht => ?_
      obtain ⟨b, hb, rfl⟩ := List.mem_map.1 ht
      obtain ⟨outcome, hreply, -, hdenied, -⟩ := hfate b hb
      rw [Turn.endsIn_iff hreply]
      exact hdenied.2 hswitch
    have hgenerated : report.generated = 0 := by omega
    have hstored : report.nodesStored = 0 := by
      rw [hreport] at hgenerated ⊢
      refine Turn.nodesStored_eq_zero fun t ht => ?_
      simpa using List.countP_eq_zero.1 hgenerated t ht
    exact ⟨hdenied, hgenerated, hnodes ▸ hstored⟩
  · intro hswitch
    have hdenied : report.denied = 0 := by
      rw [hreport]
      refine List.countP_eq_zero.2 fun t ht => ?_
      obtain ⟨b, hb, rfl⟩ := List.mem_map.1 ht
      obtain ⟨outcome, hreply, -, hdenied, -⟩ := hfate b hb
      rw [Turn.endsIn_iff hreply, hdenied, hswitch]
      exact Bool.noConfusion
    have htransient : report.transient = bs.countP fun b => b.mimeType = "text/html" := by
      rw [hreport]
      change (bs.map turn).countP _ = _
      rw [List.countP_map]
      refine List.countP_congr fun b hb => ?_
      obtain ⟨outcome, hreply, -, -, htransient⟩ := hfate b hb
      rw [Function.comp_apply, Turn.endsIn_iff hreply, decide_eq_true_iff]
      exact htransient hswitch
    have htypes := congrArg (List.countP fun mime => decide (mime = "text/html"))
      (map_mimeType_bitstreamsOf h)
    rw [List.countP_map, List.countP_map] at htypes
    exact ⟨hdenied, htransient.trans htypes⟩

end Report

/-! ## The run on a host -/

/-- Settings without a fault make a service that admits everyone. -/
theorem serviceFor_eq {config : Config} (h : config.fault? = none) :
    serviceFor config = .ok ⟨config, .unrestricted, {}⟩ := by
  unfold serviceFor Service.create Config.checked
  rw [h]

/-- **A sweep of a folder comes out clean and complete.**  With settings that are not refused,
on any host on which a path leads to a folder, the run walks through the folder and ends
with the report on what the walk found.  Whatever the files of the folder are called and
whatever is in them, each of them is processed, none fails and none is there before; with
the master switch off all are denied and nothing is stored, and with it on none is denied
and the pages are passed over.  This is so even if the files cannot be opened any more, or
hold something else, when their turn comes.

No text has the name of an archive, and every file is found again under its identifier,
which no directory refuses. -/
theorem sweep_of_folder {m : Type → Type} [Monad m] [LawfulMonad m] (host : Host m)
    (config : Config) (path : String) (asJson : Bool) {place : Place m} {walk : m FileTree}
    (hconfig : config.fault? = none) (hplace : host path = pure (some place))
    (hwalk : place.entry = .folder walk) :
    let svc : Service := ⟨config, .unrestricted, {}⟩
    (runSweep host config path asJson).run = (fun tree =>
        let swept := sweepTree svc tree
        .ok { stdout := if asJson then jsonReport swept.1 else summary swept.1 swept.2
              stderr := lines ["Sweeping " ++ place.path ++ "..."] }) <$> walk ∧
      (∀ entries, (FileTree.folder entries).IsProper →
        let tree := FileTree.folder entries
        let swept := sweepTree svc tree
        IsCleanSweep config tree swept.1 swept.2 ∧
          (∀ source,
            let other := (svc.sweep source (bitstreamsOf tree)).run fresh
            IsCleanSweep config tree other.1.1 other.2.store.nodeCount) ∧
          ∀ b ∈ bitstreamsOf tree, (∀ root, pathOf root b.id = .ok (joinPath root b.id)) ∧
            ∃ leaf ∈ tree.leaves, b.id = joined leaf.1 ∧
              (Source.ofDirectory tree).content? b = some leaf.2) ∧
      ∀ name, guessMime name = "text/plain" → hasArchiveExtension name = false := by
  intro svc
  refine ⟨?_, ?_, fun _ => hasArchiveExtension_of_plain⟩
  · unfold runSweep
    simp only [hplace, hwalk, serviceFor_eq hconfig, liftM_pure, pure_bind, bind_pure_comp,
      ExceptT.run_map, ExceptT.run_liftM, Functor.map_map]
    rfl
  · intro entries h tree swept
    refine ⟨isCleanSweep_sweep config (.ofDirectory tree) h, fun source =>
      isCleanSweep_sweep config source h, fun b hb => ⟨?_, ?_⟩⟩
    · exact pathOf_of_mem_bitstreamsOf h hb
    · exact content?_of_mem_bitstreamsOf h hb

/-- A folder with a text, one that cannot be read, and a folder with a page and two files
that are archives only by their names. -/
theorem sweep_of_folder_nested :
    let tree : FileTree := .folder [("notes.txt", .file (.ofBytes [0x68, 0x69])),
      ("broken.MD", .file (.unreadable "broken")),
      ("docs", .folder [("page.html", .file (.ofBytes [0x3c])),
        ("a.zip", .file (.ofBytes [0x50, 0x4b])), ("b.tgz", .file (.ofBytes []))])]
    let host := tree.host "/srv"
    let swept := sweepTree ⟨{}, .unrestricted, {}⟩ tree
    (runSweep host {} "." false).run = .ok { stdout := summary swept.1 swept.2
                                             stderr := lines ["Sweeping /srv..."] } ∧
      swept.1.processed = 5 ∧ swept.1.failures = [] ∧ swept.1.transient = 1 ∧
      swept.1.denied = 0 ∧ swept.1.generated + swept.1.empty = 4 ∧
      swept.1.nodesStored = swept.2 := by
  intro tree host swept
  have hplace : host "." = pure (some ⟨"/srv", .folder tree⟩) := rfl
  have hproper : tree.IsProper := by
    simp only [tree, IsProper, AreProper]
    decide
  have hfiles : tree.leaves.length = 5 := rfl
  have hpages : (tree.leaves.countP fun leaf => guessMime (leafName leaf) = "text/html") = 1 := by
    decide
  have hentries : ∃ entries, tree = .folder entries := ⟨_, rfl⟩
  clear_value host tree
  obtain ⟨entries, rfl⟩ := hentries
  obtain ⟨hrun, hclean, -⟩ := sweep_of_folder host {} "." false (by decide) hplace rfl
  obtain ⟨report, -⟩ := hclean entries hproper
  obtain ⟨hdenied, htransient⟩ := report.on rfl
  have hprocessed : swept.1.processed = 5 := report.processed.trans hfiles
  have hone : swept.1.transient = 1 := htransient.trans hpages
  have haccounted : swept.1.generated + swept.1.denied + swept.1.transient + swept.1.empty =
      swept.1.processed := report.accounted
  have hnone : swept.1.denied = 0 := hdenied
  exact ⟨hrun, hprocessed, report.failures, hone, hnone, by omega, report.nodes⟩

end ContentPreview.CommandLine
