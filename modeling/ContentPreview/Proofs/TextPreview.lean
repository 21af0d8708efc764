import ContentPreview.Proofs.Bounds
import ContentPreview.Proofs.Text.LossyReading
import ContentPreview.Service

/-!
# The preview of a plain text

A plain text is not read to its end: reading stops after four bytes for each
character that can be shown, and for one more.  This module proves that the
preview is nevertheless that of the whole text.

Two facts meet here.  A bounded read of a stream gives a beginning of its bytes,
however the stream divides them (`readAtMost_eq`).  And that beginning holds more
characters than can be shown and agrees with the whole text on them, so the cut
of the text and its marker fall in the same place (`truncate_decodeLossy_take`).

The number of bytes to be read is a word that stays at the greatest one instead of
passing it.  For a stream whose bytes can be counted in a word that makes no
difference, and neither does it where the number does not reach the greatest word.
At the greatest bound there is no room for one more character, so it is left out.

## Main results

* `toNat_byteLimit`, `readAtMost_byteLimit` — the number of bytes, and what is read.
* `generate_plainText_eq_whole` — the preview of a plain text that is read to a
  bound is the bounded preview of all of it.
-/

namespace ContentPreview

/-! ## Reading up to a bound -/

namespace Stream

/-- What reading to the end of the pieces gives. -/
private def drained (failure : Option String) (bytes : List UInt8) :
    Except String (List UInt8) :=
  match failure with
  | some reason => .error reason
  | none => .ok bytes

private theorem collect_eq (failure : Option String) (limit : Nat)
    (pieces : List (List UInt8)) :
    collect failure limit pieces =
      if limit ≤ pieces.flatten.length then .ok (pieces.flatten.take limit)
      else drained failure pieces.flatten := by
  induction pieces generalizing limit with
  | nil => cases limit <;> cases failure <;> simp [collect, drained]
  | cons piece rest ih =>
      cases limit with
      | zero => simp [collect]
      | succ limit =>
          rw [collect, ih, List.flatten_cons, List.length_append, List.take_append]
          by_cases h : limit + 1 - piece.length ≤ rest.flatten.length
          · rw [if_pos h, if_pos (by omega)]
          · rw [if_neg h, if_neg (by omega), List.take_of_length_le (by omega)]
            cases failure with
            | some reason => rfl
            | none => rfl

/-- A bounded read gives the first bytes, whatever pieces they come in.  A
stream that is shorter than the bound is read to its end, and fails if it breaks
there. -/
theorem readAtMost_eq (limit : Nat) (s : Stream) :
    s.readAtMost limit =
      if limit ≤ s.bytes.length then .ok (s.bytes.take limit) else s.readAll := by
  unfold readAtMost readAll bytes
  rw [collect_eq]
  rfl

/-- A bound that has to fit a 64-bit word, and stops at the largest one, reads the
same of every stream that is shorter than that. -/
theorem readAtMost_min_word {s : Stream} (h : s.bytes.length < Text.wordBound - 1)
    (limit : Nat) : s.readAtMost (min limit (Text.wordBound - 1)) = s.readAtMost limit := by
  rw [readAtMost_eq, readAtMost_eq]
  by_cases hlimit : limit ≤ Text.wordBound - 1
  · rw [Nat.min_eq_left hlimit]
  · rw [if_neg (by omega), if_neg (by omega)]

end Stream

/-! ## The cut of a text -/

/-- Two texts over the bound are cut alike if they agree up to the bound. -/
theorem truncateText_congr {max : Nat} {s t : String} (hs : max < s.length)
    (ht : max < t.length) (h : s.toList.take max = t.toList.take max) :
    truncateText max s = truncateText max t := by
  have hkeep : s.toList.take (max - truncationMarker.length) =
      t.toList.take (max - truncationMarker.length) := by
    have hmin : max - truncationMarker.length = min (max - truncationMarker.length) max := by
      omega
    rw [hmin, ← List.take_take, h, List.take_take]
  rw [truncateText_of_lt hs, truncateText_of_lt ht, hkeep]

/-- Four bytes for each character that may be shown, and for one more, settle
the cut of a text. -/
theorem truncate_decodeLossy_take {max : Nat} {bytes : List UInt8}
    (h : 4 * (max + 1) ≤ bytes.length) :
    truncateText max (Text.Utf8.decodeLossy (bytes.take (4 * (max + 1)))) =
      truncateText max (Text.Utf8.decodeLossy bytes) := by
  have hfront : 4 * (max + 1) ≤ (bytes.take (4 * (max + 1))).length := by
    rw [List.length_take]
    omega
  have hagree := Text.Utf8.take_decodeLossy_append (bytes.drop (4 * (max + 1)))
    (show 4 * max ≤ (bytes.take (4 * (max + 1))).length by omega)
  rw [List.take_append_drop] at hagree
  exact truncateText_congr (Text.Utf8.le_length_decodeLossy hfront)
    (Text.Utf8.le_length_decodeLossy h) hagree

/-! ## The preview -/

namespace Service

theorem config_of_create {config : Config} {policy : Policy} {extractor : Extractor}
    {svc : Service} (h : create config policy extractor = .ok svc) : svc.config = config := by
  unfold create Config.checked at h
  cases hfault : config.fault? with
  | some fault => simp [hfault] at h
  | none =>
      simp only [hfault, Except.ok.injEq] at h
      rw [← h]

/-- The bounded preview of a text is that of the bytes up to the limit, unless the stream
breaks before it is reached. -/
theorem plainTextPreview_eq (svc : Service) (b : Bitstream) (s : Stream) :
    svc.plainTextPreview b s =
      if s.failure.isSome ∧ s.bytes.length < svc.byteLimit.toNat then []
      else textNode b (truncateText svc.config.maxContentLength
        (Text.Utf8.decodeLossy (s.bytes.take svc.byteLimit.toNat))) := by
  unfold plainTextPreview
  rw [Stream.readAtMost_eq]
  by_cases hlong : svc.byteLimit.toNat ≤ s.bytes.length
  · rw [if_pos hlong, if_neg (by omega)]
  · rw [if_neg hlong, Stream.readAll, List.take_of_length_le (by omega)]
    cases hfail : s.failure with
    | some reason => rw [if_pos ⟨rfl, by omega⟩]
    | none => rw [if_neg (by simp)]

/-- Four bytes for each character that can be shown, and for one more, up to the largest
word. -/
theorem toNat_byteLimit {svc : Service}
    (h : svc.config.maxContentLength < Text.wordBound - 1) :
    svc.byteLimit.toNat = min (4 * (svc.config.maxContentLength + 1)) (Text.wordBound - 1) := by
  have hbound : Text.wordBound = 2 ^ 64 := rfl
  have hsum : (UInt64.ofNat svc.config.maxContentLength + 1).toNat =
      svc.config.maxContentLength + 1 := by
    rw [UInt64.toNat_add, UInt64.toNat_ofNat', UInt64.toNat_one]
    omega
  unfold byteLimit saturatingMul maxCharBytes
  rw [UInt64.toNat_ofNat', hsum]
  change min ((svc.config.maxContentLength + 1) * 4) (Text.wordBound - 1) % 2 ^ 64 = _
  omega

/-- Where a word can count the bytes, reading up to the limit is reading up to four bytes for
each character that can be shown, and for one more. -/
theorem readAtMost_byteLimit {svc : Service} {s : Stream}
    (h : svc.config.maxContentLength < Text.wordBound - 1)
    (hcounted : 4 * (svc.config.maxContentLength + 1) < Text.wordBound ∨
      s.bytes.length < Text.wordBound - 1) :
    s.readAtMost svc.byteLimit.toNat =
      s.readAtMost (4 * (svc.config.maxContentLength + 1)) := by
  rw [toNat_byteLimit h]
  rcases hcounted with hlimit | hshort
  · rw [Nat.min_eq_left (by omega)]
  · exact Stream.readAtMost_min_word hshort _

/-- The bounded preview of a text is that of all its bytes, unless the stream
breaks before the bound is reached. -/
theorem plainTextPreview_eq_whole {svc : Service} {s : Stream}
    (h : svc.config.maxContentLength < Text.wordBound - 1)
    (hcounted : 4 * (svc.config.maxContentLength + 1) < Text.wordBound ∨
      s.bytes.length < Text.wordBound - 1) (b : Bitstream) :
    svc.plainTextPreview b s =
      if s.failure.isSome ∧ s.bytes.length < 4 * (svc.config.maxContentLength + 1) then []
      else textNode b
        (truncateText svc.config.maxContentLength (Text.Utf8.decodeLossy s.bytes)) := by
  unfold plainTextPreview
  rw [readAtMost_byteLimit h hcounted, Stream.readAtMost_eq]
  by_cases hlong : 4 * (svc.config.maxContentLength + 1) ≤ s.bytes.length
  · rw [if_pos hlong, if_neg (by omega)]
    exact congrArg (textNode b) (truncate_decodeLossy_take hlong)
  · rw [if_neg hlong, Stream.readAll]
    cases hfail : s.failure with
    | some reason => rw [if_pos ⟨rfl, by omega⟩]
    | none => rw [if_neg (by simp)]

/-- A plain text that is no archive by its name is shown as a text. -/
theorem generate_plainText {svc : Service} {b : Bitstream} (hkind : b.kind = .plainText)
    (hname : hasArchiveExtension b.nameOrEmpty = false) (s : Stream) (ledger : Ledger) :
    (svc.generate b s).run ledger = (.ok (svc.plainTextPreview b s), ledger) := by
  unfold generate
  rw [hkind]
  simp only [hname]
  rfl

/-- A plain text that is an archive by its name is refused. -/
theorem generate_mislabelled {svc : Service} {b : Bitstream} (hkind : b.kind = .plainText)
    (hname : hasArchiveExtension b.nameOrEmpty = true) (s : Stream) (ledger : Ledger) :
    (svc.generate b s).run ledger =
      (.error (.mislabelled b.nameOrEmpty b.mimeType), ledger) := by
  unfold generate
  rw [hkind]
  simp only [hname]
  rfl

/-- **The bounded read agrees with the unbounded one.**  The preview of a plain
text is one file with the bounded lossy reading of *all* bytes of the stream, and
the number of its bytes in UTF-8 as its size; only a stream that breaks before
`4 * (max + 1)` bytes has the empty preview.  The bytes behind that bound are not
read: nothing depends on them, nor on how the stream goes on or ends there.

Bytes are counted in 64-bit words.  The bound on characters is any but the largest
word, and where `4 * (max + 1)` is no word itself, the stream has to be one whose
bytes can be counted. -/
theorem generate_plainText_eq_whole {config : Config} {policy : Policy}
    {extractor : Extractor} {svc : Service}
    (hsvc : create config policy extractor = .ok svc)
    {b : Bitstream} (hkind : b.kind = .plainText)
    (hname : hasArchiveExtension b.nameOrEmpty = false)
    (hmax : config.maxContentLength < Text.wordBound - 1) (s : Stream)
    (hcounted : 4 * (config.maxContentLength + 1) < Text.wordBound ∨
      s.bytes.length < Text.wordBound - 1) (ledger : Ledger) :
    let limit := 4 * (config.maxContentLength + 1)
    let content := truncateText config.maxContentLength (Text.Utf8.decodeLossy s.bytes)
    (svc.generate b s).run ledger =
        (.ok (if s.failure.isSome ∧ s.bytes.length < limit then []
          else [⟨b.name.getD "", content, .ofNat content.utf8ByteSize, false, []⟩]), ledger) ∧
      (∀ text : String, Text.Utf8.Reads s.bytes text.toList ↔
        text = Text.Utf8.decodeLossy s.bytes) ∧
      (limit ≤ s.bytes.length → ∀ t : Stream, t.bytes.take limit = s.bytes.take limit →
        (svc.generate b t).run ledger = (svc.generate b s).run ledger) := by
  intro limit content
  obtain rfl : svc.config = config := config_of_create hsvc
  refine ⟨?_, fun text => Text.Utf8.reads_iff, ?_⟩
  · rw [generate_plainText hkind hname, plainTextPreview_eq_whole hmax hcounted]
    rfl
  · intro hlong t ht
    have hlong' : limit ≤ t.bytes.length := by
      have hlen := congrArg List.length ht
      rw [List.length_take, List.length_take] at hlen
      omega
    have hread : t.readAtMost limit = s.readAtMost limit := by
      rw [Stream.readAtMost_eq, Stream.readAtMost_eq, if_pos hlong, if_pos hlong', ht]
    have hlimit : 4 * (svc.config.maxContentLength + 1) < Text.wordBound := by
      omega
    rw [generate_plainText hkind hname, generate_plainText hkind hname]
    unfold plainTextPreview
    rw [readAtMost_byteLimit hmax (Or.inl hlimit), readAtMost_byteLimit hmax hcounted, hread]

/-- A text of which seven characters can be shown, read from a stream that breaks
one byte behind the bound, in the middle of a character. -/
theorem generate_plainText_eq_whole_split :
    let svc : Service := ⟨⟨⟨1000, 7⟩, true, false⟩, .unrestricted, {}⟩
    let b : Bitstream := ⟨"b", some "notes.txt", "text/plain", 1⟩
    let s : Stream :=
      ⟨[[0x61, 0xC3], 0xA9 :: (List.replicate 15 [0xC3, 0xA9]).flatten], some "dropped"⟩
    create svc.config svc.policy svc.extractor = .ok svc ∧ b.kind = .plainText ∧
      hasArchiveExtension b.nameOrEmpty = false ∧
      svc.config.maxContentLength < Text.wordBound - 1 ∧
      4 * (svc.config.maxContentLength + 1) < Text.wordBound ∧
      (svc.generate b s).run {} = (.ok [⟨"notes.txt", "a . . .", 7, false, []⟩], {}) := by
  intro svc b s
  have hsvc : create svc.config svc.policy svc.extractor = .ok svc := rfl
  have hkind : b.kind = .plainText := by decide
  have hname : hasArchiveExtension b.nameOrEmpty = false := by decide
  have hmax : svc.config.maxContentLength < Text.wordBound - 1 := by decide
  have hcounted : 4 * (svc.config.maxContentLength + 1) < Text.wordBound := by decide
  refine ⟨hsvc, hkind, hname, hmax, hcounted, ?_⟩
  have h := (generate_plainText_eq_whole hsvc hkind hname hmax s (Or.inl hcounted) {}).1
  have hcontent : truncateText 7 (Text.Utf8.decodeLossy s.bytes) = "a . . ." := by decide
  have hlong : ¬ (s.failure.isSome ∧ s.bytes.length < 4 * (7 + 1)) := by decide
  rw [h, if_neg hlong, hcontent]
  rfl

end Service

end ContentPreview
