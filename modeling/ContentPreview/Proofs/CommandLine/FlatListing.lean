import ContentPreview.CommandLine.Run
import ContentPreview.Proofs.ArchiveListing
import ContentPreview.Proofs.ArchivePreview
import ContentPreview.Proofs.Record.Grammar
import Mathlib.Tactic.TFAE

/-!
# The flat listing as lines

A flat listing is printed record by record, each with a line break behind it.  Who reads it
line by line gets the records back if each of them takes one line, and a record has no
means to see to that: its path is printed as it stands, and a path may hold anything that
the name of a member may hold.  So the listing is read back exactly if no path holds a line
break.  Other control characters and field separators do no harm.

A line break can only come from the name of a member.  One that has it is split over
several lines, and since it chooses the text on both sides of the break it can make each
of them look like the record of a member that the archive does not have.

## Main definitions

* `linesOf` — the lines of a text.
* `Lists` — the records that a run shows, and the archive that they are of.

## Main results

* `linesOf_lines` — what is left of texts that are printed as lines.
* `flatListing_tfae` — when the lines of records are read as the records.
* `runShow_flat_ok_iff` — the runs that end well, and what they print.
* `flat_listing_read_back` — the listings that can be read line by line.
* `break_in_name_forges_records` — a name that makes up members.
-/

namespace ContentPreview

namespace CommandLine

/-! ## Lines of a text -/

/-- The pieces of a text between its line breaks. -/
def pieces (text : String) : List String := (text.toList.splitOn '\n').map String.ofList

/-- The lines of a text: the pieces that have a line break behind them. -/
def linesOf (text : String) : List String := (pieces text).dropLast

theorem lines_cons (text : String) (rest : List String) :
    lines (text :: rest) = text ++ "\n" ++ lines rest := by
  simp [lines]

theorem toList_lines (texts : List String) :
    (lines texts).toList = texts.flatMap fun text => text.toList ++ ['\n'] := by
  induction texts with
  | nil => rfl
  | cons text rest ih => simp [lines_cons, ih]

theorem pieces_append_break (text rest : String) :
    pieces (text ++ "\n" ++ rest) = pieces text ++ pieces rest := by
  have hchars : (text ++ "\n" ++ rest).toList = text.toList ++ '\n' :: rest.toList := by simp
  unfold pieces
  rw [hchars, List.splitOn_append_cons_self, List.map_append]

/-- A text without a line break is one piece. -/
theorem pieces_eq_singleton {text : String} (h : '\n' ∉ text.toList) : pieces text = [text] := by
  unfold pieces
  rw [List.splitOn_eq_singleton h, List.map_singleton, String.ofList_toList]

/-- A text has one piece more than line breaks. -/
theorem length_pieces (text : String) :
    (pieces text).length = 1 + text.toList.count '\n' := by
  unfold pieces
  rw [List.length_map]
  induction text.toList with
  | nil => simp
  | cons c rest ih =>
      rw [List.splitOn_cons_eq_if_modifyHead, List.count_cons]
      by_cases hc : (c == '\n') = true
      · rw [if_pos hc, if_pos hc, List.length_cons, ih, Nat.add_assoc]
      · rw [if_neg hc, if_neg hc, List.length_modifyHead, ih, Nat.add_zero]

/-- Texts that are printed as lines leave their pieces. -/
theorem linesOf_lines (texts : List String) : linesOf (lines texts) = texts.flatMap pieces := by
  have hpieces : pieces (lines texts) = texts.flatMap pieces ++ [""] := by
    induction texts with
    | nil => simp [lines, pieces]
    | cons text rest ih =>
        rw [lines_cons, pieces_append_break, ih, List.flatMap_cons, List.append_assoc]
  unfold linesOf
  rw [hpieces, List.dropLast_concat]

/-- Splitting at line breaks loses nothing but the end of the last piece. -/
theorem flatMap_splitOn_break (cs : List Char) :
    ((cs.splitOn '\n').flatMap fun piece => piece ++ ['\n']) = cs ++ ['\n'] := by
  induction cs with
  | nil => simp
  | cons c cs ih =>
      rw [List.splitOn_cons_eq_if_modifyHead]
      by_cases hc : (c == '\n') = true
      · rw [if_pos hc, List.flatMap_cons, ih, eq_of_beq hc]
        rfl
      · rw [if_neg hc]
        cases hsplit : cs.splitOn '\n' with
        | nil => exact absurd hsplit (List.splitOn_ne_nil '\n' cs)
        | cons piece others =>
            rw [hsplit, List.flatMap_cons] at ih
            rw [List.modifyHead_cons, List.flatMap_cons, List.cons_append, List.cons_append, ih,
              List.cons_append]

/-- The pieces of a text, each with a line break behind it, are the text with a line break
behind it. -/
theorem lines_pieces_append (text : String) (rest : List String) :
    lines (pieces text ++ rest) = text ++ "\n" ++ lines rest := by
  rw [← String.toList_inj, toList_lines, List.flatMap_append, ← toList_lines rest]
  unfold pieces
  rw [List.flatMap_map]
  simp [flatMap_splitOn_break]

/-- The lines of printed texts are all that was printed. -/
theorem lines_linesOf_lines (texts : List String) :
    lines (linesOf (lines texts)) = lines texts := by
  rw [linesOf_lines]
  induction texts with
  | nil => rfl
  | cons text rest ih => rw [List.flatMap_cons, lines_pieces_append, ih, lines_cons]

/-! ## Lines of records -/

/-- The line of a record has the line breaks of its path. -/
theorem count_break_line (r : Record) : r.line.toList.count '\n' = r.path.toList.count '\n' := by
  have hdigits : (Text.decimal r.size.toNat).toList.count '\n' = 0 :=
    List.count_eq_zero.2 (Text.not_mem_decimal (by decide) _)
  rw [Record.toList_line]
  cases r.isDirectory <;> simp [hdigits, Record.fieldSeparator, Path.separator]

theorem linesOf_flatListing (records : List Record) :
    linesOf (flatListing records) = records.flatMap fun r => pieces r.line := by
  unfold flatListing
  rw [linesOf_lines, List.flatMap_map]

/-- A flat listing has a line for each record, and one for each line break in a path. -/
theorem length_linesOf_flatListing (records : List Record) :
    (linesOf (flatListing records)).length =
      records.length + (records.flatMap fun r => r.path.toList).count '\n' := by
  rw [linesOf_flatListing]
  induction records with
  | nil => rfl
  | cons r rest ih =>
      rw [List.flatMap_cons, List.flatMap_cons, List.length_append, List.length_cons,
        List.count_append, ih, length_pieces, count_break_line]
      omega

/-- A flat listing gives each record the line that is its own, and these lines are read as
the records, exactly if no path holds a line break.  Each record prints one line at least, so
one break anywhere makes the lines too many. -/
theorem flatListing_tfae {records : List Record} (h : ∀ r ∈ records, r.IsNormal) :
    List.TFAE [linesOf (flatListing records) = records.map Record.line,
      Record.parseAll (linesOf (flatListing records)) = .ok records,
      (linesOf (flatListing records)).length = records.length,
      ∀ r ∈ records, '\n' ∉ r.path.toList] := by
  tfae_have 1 → 2 := by
    intro hlines
    rw [hlines]
    exact parseAll_map_line h
  tfae_have 2 → 3 := fun hparsed => (Record.parseAll_eq_ok_iff.1 hparsed).length_eq
  tfae_have 3 → 4 := by
    intro hlength r hr hbreak
    rw [length_linesOf_flatListing, Nat.add_eq_left, List.count_eq_zero] at hlength
    exact hlength (List.mem_flatMap_of_mem hr hbreak)
  tfae_have 4 → 1 := by
    intro hplain
    rw [linesOf_flatListing, List.map_eq_flatMap]
    refine List.flatMap_congr fun r hr => ?_
    have hnone : r.line.toList.count '\n' = 0 := by
      rw [count_break_line, List.count_eq_zero]
      exact hplain r hr
    exact pieces_eq_singleton (List.count_eq_zero.1 hnone)
  tfae_finish

/-! ## The listing of an archive -/

/-- The records of an archive are those of its members. -/
theorem eq_filterMap_of_tryExtract {x : Extractor} {format : ArchiveFormat} {s : Stream}
    {ledger : Ledger} {records : List Record}
    (h : ((tryExtract x format s).run ledger).1 = .ok records) :
    records = (Archive.contentsOf x.readers format s).members.filterMap Archive.Member.record? := by
  rw [tryExtract_eq] at h
  cases hunreadable : Archive.unreadable? x.scratch format s with
  | some e =>
      rw [hunreadable] at h
      cases h
  | none =>
      rw [hunreadable] at h
      dsimp only at h
      cases hdamaged : (Archive.contentsOf x.readers format s).isDamaged with
      | true =>
          rw [Archive.listingOr_of_damaged hdamaged] at h
          cases h
      | false =>
          rw [Archive.listingOr_of_not_damaged hdamaged] at h
          exact (Except.ok.inj h).symm

/-- The path of a record holds nothing that is not in the name of its member. -/
theorem mem_name_of_mem_path {m : Archive.Member} {r : Record} {c : Char}
    (h : m.record? = some r) (hc : c ∈ r.path.toList) : c ∈ m.name.toList := by
  obtain ⟨path, hpath, rfl⟩ := Archive.Member.exists_path_of_record h
  have hkept : c ∈ path.toList := by
    unfold Record.ofRaw at hc
    split at hc
    · unfold Record.directory Text.dropTrailing at hc
      rw [String.toList_ofList, List.mem_reverse] at hc
      exact List.mem_reverse.1 ((List.dropWhile_sublist _).mem hc)
    · exact hc
  rw [(Path.toList_of_normalize hpath).1] at hkept
  exact (Path.dropRootSteps_suffix m.name.toList).subset hkept

section FlatRecords

variable {config : Config} {format : ArchiveFormat} {s : Stream} {records : List Record}

/-- A record of a flat listing is that of a member, or stands for files left out. -/
theorem mem_flatRecords (h : flatRecords config format s = .ok records) {r : Record}
    (hr : r ∈ records) :
    (∃ m ∈ (Archive.contentsOf {} format s).members, m.record? = some r) ∨
      r = Record.tooManyFiles := by
  unfold flatRecords at h
  cases hanswer : ((tryExtract {} format s).run {}).1 with
  | error e =>
      rw [hanswer] at h
      cases h
  | ok listed =>
      rw [hanswer] at h
      obtain rfl := Except.ok.inj h
      rcases mem_limitLeaves hr with hlisted | hmark
      · rw [eq_filterMap_of_tryExtract hanswer] at hlisted
        exact Or.inl (List.mem_filterMap.1 hlisted)
      · exact Or.inr hmark

theorem isNormal_flatRecords (h : flatRecords config format s = .ok records) :
    ∀ r ∈ records, r.IsNormal := by
  intro r hr
  rcases mem_flatRecords h hr with ⟨m, -, hm⟩ | rfl
  · exact m.isNormal_of_record hm
  · exact Record.isNormal_tooManyFiles

/-- A line break in a path comes from the name of a member. -/
theorem exists_member_of_break (h : flatRecords config format s = .ok records) {r : Record}
    (hr : r ∈ records) (hbreak : '\n' ∈ r.path.toList) :
    ∃ m ∈ (Archive.contentsOf {} format s).members, m.record? = some r ∧ '\n' ∈ m.name.toList := by
  rcases mem_flatRecords h hr with ⟨m, hmem, hm⟩ | rfl
  · exact ⟨m, hmem, hm, mem_name_of_mem_path hm hbreak⟩
  · exact absurd hbreak (by decide)

end FlatRecords

/-! ## The run -/

section Run

variable {config : Config} {host : Host Id} {path : String} {ending : Ending}

/-- On a host, a path leads to a file that is taken for an archive of the format and holds
the stream, and these records of it are shown. -/
structure Lists (host : Host Id) (config : Config) (path : String) (mime : Option String)
    (format : ArchiveFormat) (s : Stream) (records : List Record) : Prop where
  fault : config.fault? = none
  place : ∃ place : Place Id, host path = some place ∧ place.entry = .file (some s) ∧
    (Kind.ofMime (mime.getD (guessMime place.name))).archiveFormat = some format
  records : flatRecords config format s = .ok records

/-- What has to be there for a flat listing of a file to end well: settings that are not
refused, a type that is that of archives, and a content whose records can be listed. -/
theorem showFlat_ok_iff {b : Bitstream} {content : Option Stream} :
    (showFlat config path b (pure content : Id (Option Stream))).run = .ok ending ↔
      config.fault? = none ∧ ∃ format, b.kind.archiveFormat = some format ∧
        ∃ s, content = some s ∧ ∃ records, flatRecords config format s = .ok records ∧
          ending = { stdout := flatListing records } := by
  unfold showFlat
  cases config.fault? with
  | some fault => exact iff_of_false nofun nofun
  | none =>
      cases b.kind.archiveFormat with
      | none => exact iff_of_false nofun nofun
      | some format =>
          simp only [liftM_pure, pure_bind]
          cases content with
          | none => exact iff_of_false nofun nofun
          | some s =>
              dsimp only
              cases hrecords : flatRecords config format s with
              | error e =>
                  refine iff_of_false nofun ?_
                  rintro ⟨-, _, ⟨⟩, _, ⟨⟩, records, hok, -⟩
                  cases hrecords.symm.trans hok
              | ok records =>
                  constructor
                  · intro h
                    cases h
                    exact ⟨trivial, format, rfl, s, rfl, records, hrecords, rfl⟩
                  · rintro ⟨-, _, ⟨⟩, _, ⟨⟩, listed, hok, rfl⟩
                    cases hrecords.symm.trans hok
                    rfl

/-- A flat listing that ends well is that of a file which is taken for an archive. -/
theorem runShow_flat_ok_iff {mime : Option String} :
    (runShow host config path mime .flat).run = .ok ending ↔
      ∃ format s records, Lists host config path mime format s records ∧
        ending = { stdout := flatListing records } := by
  obtain ⟨found, hfound⟩ : ∃ found : Option (Place Id), host path = pure found := ⟨_, rfl⟩
  unfold runShow
  rw [hfound]
  simp only [liftM_pure, pure_bind]
  constructor
  · intro h
    cases found with
    | none => cases h
    | some place =>
        dsimp only at h
        cases hentry : place.entry with
        | folder walk =>
            rw [hentry] at h
            cases h
        | special =>
            rw [hentry] at h
            cases h
        | file open? =>
            rw [hentry] at h
            obtain ⟨hfault, format, hformat, s, hopen, records, hrecords, rfl⟩ :=
              showFlat_ok_iff.1 h
            have hfile : place.entry = .file (some s) := hentry.trans (congrArg Entry.file hopen)
            exact ⟨format, s, records, ⟨hfault, ⟨place, hfound, hfile, hformat⟩, hrecords⟩, rfl⟩
  · rintro ⟨format, s, records, ⟨hfault, ⟨place, hplace, hfile, hformat⟩, hrecords⟩, rfl⟩
    obtain rfl : found = some place := hfound.symm.trans hplace
    dsimp only
    rw [hfile]
    exact showFlat_ok_iff.2 ⟨hfault, format, hformat, s, rfl, records, hrecords, rfl⟩

/-- **When a flat listing can be read line by line.**  A listing ends well exactly if there
are records to show, and it prints them.  Nothing is lost between the lines: they are the
pieces of the lines of the records, in their order, and there is one for each record and
one more for each line break in a path.  So each record has one line, and the lines are
read as the records, exactly if no path holds a line break; all other characters, those that
separate fields included, do no harm.  A line break in a path is always one in the name of
the member that the record is for. -/
theorem flat_listing_read_back (host : Host Id) (config : Config) (path : String)
    (mime : Option String) :
    (∀ ending, (runShow host config path mime .flat).run = .ok ending ↔
        ∃ format s records, Lists host config path mime format s records ∧
          ending = { stdout := flatListing records }) ∧
      ∀ format s records, Lists host config path mime format s records →
        let found := linesOf (flatListing records)
        lines found = flatListing records ∧
          found = records.flatMap (fun r => pieces r.line) ∧
          found.length = records.length + (records.flatMap fun r => r.path.toList).count '\n' ∧
          List.TFAE [found = records.map Record.line, Record.parseAll found = .ok records,
            found.length = records.length, ∀ r ∈ records, '\n' ∉ r.path.toList] ∧
          ∀ r ∈ records, '\n' ∈ r.path.toList →
            ∃ m ∈ (Archive.contentsOf {} format s).members,
              m.record? = some r ∧ '\n' ∈ m.name.toList := by
  refine ⟨fun ending => runShow_flat_ok_iff, fun format s records h => ⟨?_, ?_, ?_, ?_, ?_⟩⟩
  · exact lines_linesOf_lines _
  · exact linesOf_flatListing records
  · exact length_linesOf_flatListing records
  · exact flatListing_tfae (isNormal_flatRecords h.records)
  · exact fun r hr => exists_member_of_break h.records hr

end Run

/-! ## Names with separators -/

/-- A TAR archive with one file of seven bytes. -/
def singleMember (name checksum : List UInt8) : List UInt8 :=
  plainTarHeader name 48 55 checksum ++ List.replicate 512 120

/-- A working directory with one archive. -/
def archiveHost (bytes : List UInt8) : Host Id :=
  (FileTree.folder [("a.tar", .file (.ofBytes bytes))]).host "/srv"

theorem lists_archiveHost {bytes : List UInt8} {records : List Record}
    (h : (flatRecords {} (.tar .uncompressed) (.ofBytes bytes)).toOption = some records) :
    Lists (archiveHost bytes) {} "a.tar" none (.tar .uncompressed) (.ofBytes bytes) records := by
  have hformat : (Kind.ofMime (guessMime "a.tar")).archiveFormat = some (.tar .uncompressed) := by
    decide
  have hname : (FileTree.steps "/srv/a.tar").getLastD "" = "a.tar" := by decide +kernel
  refine ⟨by decide, ⟨⟨"/srv/a.tar", .file (some (.ofBytes bytes))⟩, rfl, rfl, ?_⟩, ?_⟩
  · rw [Place.name, hname]
    exact hformat
  cases hanswer : flatRecords {} (.tar .uncompressed) (.ofBytes bytes) with
  | error e =>
      rw [hanswer] at h
      cases h
  | ok found =>
      rw [hanswer] at h
      exact congrArg Except.ok (Option.some.inj h)

/-- A carriage return and a field separator in a name, which do no harm. -/
theorem flat_listing_read_back_control :
    let bytes := singleMember [97, 124, 49, 13, 98] [49, 51, 52, 52]
    let records := [Record.file "a|1\rb" 7]
    (runShow (archiveHost bytes) {} "a.tar" none .flat).run = .ok { stdout := "a|1\rb|7\n" } ∧
      Lists (archiveHost bytes) {} "a.tar" none (.tar .uncompressed) (.ofBytes bytes) records ∧
      linesOf "a|1\rb|7\n" = ["a|1\rb|7"] ∧ Record.parseAll ["a|1\rb|7"] = .ok records := by
  intro bytes records
  have hlists : Lists (archiveHost bytes) {} "a.tar" none (.tar .uncompressed) (.ofBytes bytes)
      records := lists_archiveHost (by decide +kernel)
  obtain ⟨hends, hread⟩ := flat_listing_read_back (archiveHost bytes) {} "a.tar" none
  obtain ⟨-, -, -, htfae, -⟩ := hread _ _ _ hlists
  have hplain : ∀ r ∈ records, '\n' ∉ r.path.toList := by decide
  have hprinted : flatListing records = "a|1\rb|7\n" := by decide
  have hlines : linesOf (flatListing records) = ["a|1\rb|7"] := (htfae.out 3 0).1 hplain
  have hparsed := (htfae.out 3 1).1 hplain
  rw [hlines] at hparsed
  rw [hprinted] at hlines
  exact ⟨(hends _).2 ⟨_, _, records, hlists, by rw [hprinted]⟩, hlists, hlines, hparsed⟩

/-- **A name forges records.**  The listing of an archive with the one file `a|1↵b` prints
two lines, and they are those of two files that the archive does not have. -/
theorem break_in_name_forges_records :
    let bytes := singleMember [97, 124, 49, 10, 98] [49, 51, 52, 49]
    (runShow (archiveHost bytes) {} "a.tar" none .flat).run = .ok { stdout := "a|1\nb|7\n" } ∧
      Lists (archiveHost bytes) {} "a.tar" none (.tar .uncompressed) (.ofBytes bytes)
        [Record.file "a|1\nb" 7] ∧
      linesOf "a|1\nb|7\n" = ["a|1", "b|7"] ∧
      Record.parseAll ["a|1", "b|7"] = .ok [Record.file "a" 1, Record.file "b" 7] := by
  intro bytes
  have hlists : Lists (archiveHost bytes) {} "a.tar" none (.tar .uncompressed) (.ofBytes bytes)
      [Record.file "a|1\nb" 7] := lists_archiveHost (by decide +kernel)
  have hprinted : flatListing [Record.file "a|1\nb" 7] = "a|1\nb|7\n" := by decide
  have hforged : ["a|1", "b|7"] = [Record.file "a" 1, Record.file "b" 7].map Record.line := by
    decide
  have hnormal : ∀ r ∈ [Record.file "a" 1, Record.file "b" 7], r.IsNormal := by
    rw [List.forall_mem_cons, List.forall_mem_singleton]
    exact ⟨⟨by decide, by decide, nofun⟩, ⟨by decide, by decide, nofun⟩⟩
  refine ⟨runShow_flat_ok_iff.2 ⟨_, _, _, hlists, by rw [hprinted]⟩, hlists, by decide, ?_⟩
  rw [hforged]
  exact parseAll_map_line hnormal

end CommandLine

end ContentPreview
