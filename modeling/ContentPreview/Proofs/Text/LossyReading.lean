import ContentPreview.Text.Encoding

/-!
# What a lossy reading of bytes is

`scan` decides byte by byte, so it says how a text is found and not which text
it is.  This module states the reading itself, against nothing but the
encoding of single characters: a byte sequence falls into parts, each part is
either the encoding of a character or ill formed, and an ill-formed part is
the longest beginning of an encoding that stands there, or one byte where none
stands.  `reads_iff` identifies that relation with `decodeLossy`.

The relation, unlike the scan, does not care how many bytes follow, and this is
what a bounded read needs: a part has at most four bytes, so the first `k` parts
are settled by the first `4 * k` bytes (`take_decodeLossy_append`).

## Main definitions

* `IsBeginning`, `IsIllFormed` — beginnings of encodings, and the parts of a
  sequence that encode nothing.
* `Reads` — the lossy reading of a byte sequence as a relation.

## Main results

* `reads_iff` — every byte sequence has exactly one lossy reading, and
  `decodeLossy` finds it.
* `take_decodeLossy_append` — what follows `4 * k` bytes has no say in the first
  `k` characters.
-/

namespace ContentPreview.Text.Utf8

/-! ## The byte classes in numbers -/

theorem width_eq (a : UInt8) :
    width a =
      if a.toNat < 0x80 then 1 else if a.toNat < 0xC2 then 0 else if a.toNat < 0xE0 then 2
      else if a.toNat < 0xF0 then 3 else if a.toNat < 0xF5 then 4 else 0 := by
  simp [width, UInt8.lt_iff_toNat_lt]

theorem width_le (a : UInt8) : width a ≤ 4 := by
  rw [width_eq]
  repeat' split
  all_goals omega

theorem isContinuation_iff (b : UInt8) :
    isContinuation b = true ↔ 0x80 ≤ b.toNat ∧ b.toNat ≤ 0xBF := by
  simp [isContinuation, UInt8.le_iff_toNat_le]

/-- A second byte is a continuation byte, and four leading bytes narrow its
range on one side. -/
theorem secondOk_iff (a b : UInt8) :
    secondOk a b = true ↔
      0x80 ≤ b.toNat ∧ b.toNat ≤ 0xBF ∧
      (a.toNat = 0xE0 → 0xA0 ≤ b.toNat) ∧ (a.toNat = 0xED → b.toNat ≤ 0x9F) ∧
      (a.toNat = 0xF0 → 0x90 ≤ b.toNat) ∧ (a.toNat = 0xF4 → b.toNat ≤ 0x8F) := by
  simp only [secondOk, ← UInt8.toNat_inj, beq_iff_eq, UInt8.reduceToNat]
  repeat' split
  all_goals
    simp only [isContinuation_iff, UInt8.le_iff_toNat_le, Bool.and_eq_true,
      decide_eq_true_eq, UInt8.reduceToNat]
    omega

/-- Whether the bytes may stand behind a leading byte. -/
def tailOk (a : UInt8) : List UInt8 → Bool
  | [] => true
  | b :: rest => secondOk a b && rest.all isContinuation

theorem tailOk_of_prefix {a : UInt8} {s t : List UInt8} (hs : s <+: t)
    (ht : tailOk a t = true) : tailOk a s = true := by
  obtain ⟨more, rfl⟩ := hs
  cases s with
  | nil => rfl
  | cons b s =>
      simp only [tailOk, List.cons_append, List.all_append, Bool.and_eq_true] at ht ⊢
      exact ⟨ht.1, ht.2.1⟩

/-! ## The encoding of one character -/

/-- The encoding of a character is a leading byte with as many bytes behind it
as its width says, all of them in range. -/
theorem encode_shape (c : Char) :
    ∃ a t, String.utf8EncodeChar c = a :: t ∧ t.length + 1 = width a ∧ tailOk a t = true := by
  have hvalid : c.val.toNat < 0xD800 ∨ (0xDFFF < c.val.toNat ∧ c.val.toNat < 0x110000) :=
    c.valid
  generalize hv : c.val.toNat = v at hvalid
  unfold String.utf8EncodeChar
  simp only [hv]
  repeat' split
  · refine ⟨_, _, rfl, ?_, rfl⟩
    rw [width_eq, UInt8.toNat_ofNat', if_pos (by omega)]
    rfl
  · refine ⟨_, _, rfl, ?_, ?_⟩
    · rw [width_eq, UInt8.toNat_ofNat', if_neg (by omega), if_neg (by omega),
        if_pos (by omega)]
      rfl
    · simp only [tailOk, List.all_nil, Bool.and_true, secondOk_iff, UInt8.toNat_ofNat']
      omega
  · refine ⟨_, _, rfl, ?_, ?_⟩
    · rw [width_eq, UInt8.toNat_ofNat', if_neg (by omega), if_neg (by omega),
        if_neg (by omega), if_pos (by omega)]
      rfl
    · simp only [tailOk, List.all_cons, List.all_nil, Bool.and_true, Bool.and_eq_true,
        secondOk_iff, isContinuation_iff, UInt8.toNat_ofNat']
      omega
  · refine ⟨_, _, rfl, ?_, ?_⟩
    · rw [width_eq, UInt8.toNat_ofNat', if_neg (by omega), if_neg (by omega),
        if_neg (by omega), if_neg (by omega), if_pos (by omega)]
      rfl
    · simp only [tailOk, List.all_cons, List.all_nil, Bool.and_true, Bool.and_eq_true,
        secondOk_iff, isContinuation_iff, UInt8.toNat_ofNat']
      omega

theorem encode_length_le (c : Char) : (String.utf8EncodeChar c).length ≤ 4 := by
  obtain ⟨a, t, he, hlen, -⟩ := encode_shape c
  have hw := width_le a
  rw [he, List.length_cons]
  omega

private theorem toNat_charOfNat {n : Nat} (h : n.isValidChar) : (Char.ofNat n).val.toNat = n := by
  unfold Char.ofNat
  rw [dif_pos h]
  rfl

theorem encode_char1 {a : UInt8} (ha : width a = 1) :
    String.utf8EncodeChar (Char.ofNat a.toNat) = [a] := by
  rw [width_eq] at ha
  have hlt : a.toNat < 0x80 := by grind
  have hv : (Char.ofNat a.toNat).val.toNat = a.toNat := toNat_charOfNat (Or.inl (by omega))
  unfold String.utf8EncodeChar
  simp only [hv]
  rw [if_pos (by omega), UInt8.ofNat_toNat]

theorem encode_char2 {a b : UInt8} (ha : width a = 2) (hb : secondOk a b = true) :
    String.utf8EncodeChar (char2 a b) = [a, b] := by
  rw [width_eq] at ha
  rw [secondOk_iff] at hb
  have hrange : 0xC2 ≤ a.toNat ∧ a.toNat < 0xE0 := by grind
  have hv : (char2 a b).val.toNat = a.toNat % 32 * 64 + b.toNat % 64 :=
    toNat_charOfNat (Or.inl (by unfold payload; omega))
  unfold String.utf8EncodeChar
  simp only [hv]
  rw [if_neg (by omega), if_pos (by omega)]
  simp only [List.cons.injEq, and_true, ← UInt8.toNat_inj, UInt8.toNat_ofNat']
  omega

theorem encode_char3 {a b c : UInt8} (ha : width a = 3) (hb : secondOk a b = true)
    (hc : isContinuation c = true) : String.utf8EncodeChar (char3 a b c) = [a, b, c] := by
  rw [width_eq] at ha
  rw [secondOk_iff] at hb
  rw [isContinuation_iff] at hc
  have hrange : 0xE0 ≤ a.toNat ∧ a.toNat < 0xF0 := by grind
  have hv : (char3 a b c).val.toNat =
      a.toNat % 16 * 4096 + b.toNat % 64 * 64 + c.toNat % 64 :=
    toNat_charOfNat (by unfold payload Nat.isValidChar; omega)
  unfold String.utf8EncodeChar
  simp only [hv]
  rw [if_neg (by omega), if_neg (by omega), if_pos (by omega)]
  simp only [List.cons.injEq, and_true, ← UInt8.toNat_inj, UInt8.toNat_ofNat']
  omega

theorem encode_char4 {a b c d : UInt8} (ha : width a = 4) (hb : secondOk a b = true)
    (hc : isContinuation c = true) (hd : isContinuation d = true) :
    String.utf8EncodeChar (char4 a b c d) = [a, b, c, d] := by
  rw [width_eq] at ha
  rw [secondOk_iff] at hb
  rw [isContinuation_iff] at hc hd
  have hrange : 0xF0 ≤ a.toNat ∧ a.toNat < 0xF5 := by grind
  have hv : (char4 a b c d).val.toNat =
      a.toNat % 8 * 262144 + b.toNat % 64 * 4096 + c.toNat % 64 * 64 + d.toNat % 64 :=
    toNat_charOfNat (by unfold payload Nat.isValidChar; omega)
  unfold String.utf8EncodeChar
  simp only [hv]
  rw [if_neg (by omega), if_neg (by omega), if_neg (by omega)]
  simp only [List.cons.injEq, and_true, ← UInt8.toNat_inj, UInt8.toNat_ofNat']
  omega

/-- What is encoded at the front of a sequence can be told from the sequence. -/
theorem encode_append_inj {c c' : Char} {rest rest' : List UInt8}
    (h : String.utf8EncodeChar c ++ rest = String.utf8EncodeChar c' ++ rest') : c = c' := by
  have hdecode (d : Char) (more : List UInt8) :
      ByteArray.utf8DecodeChar? (String.utf8EncodeChar d ++ more).toByteArray 0 = some d := by
    rw [List.toByteArray_append]
    exact ByteArray.utf8DecodeChar?_utf8EncodeChar_append
  have hc := hdecode c rest
  rw [h, hdecode c' rest'] at hc
  exact (Option.some.inj hc).symm

/-! ## The reading as a relation -/

/-- The bytes begin the encoding of some character. -/
def IsBeginning (part : List UInt8) : Prop := ∃ c, part <+: String.utf8EncodeChar c

/-- In front of `rest`, the bytes of `part` encode nothing: no character is
encoded there, and `part` is the longest beginning of an encoding, or one byte
where there is none. -/
structure IsIllFormed (part rest : List UInt8) : Prop where
  ne_nil : part ≠ []
  noCharacter : ∀ c, ¬ String.utf8EncodeChar c <+: part ++ rest
  begins : part.length = 1 ∨ IsBeginning part
  longest : ∀ longer, longer <+: part ++ rest → IsBeginning longer →
    longer.length ≤ part.length

/-- In front of `rest`, the bytes of `part` are read as one character. -/
inductive ReadsAs : List UInt8 → List UInt8 → Char → Prop where
  | character (c : Char) (rest : List UInt8) : ReadsAs (String.utf8EncodeChar c) rest c
  | illFormed {part rest : List UInt8} (h : IsIllFormed part rest) :
      ReadsAs part rest replacement

/-- The lossy reading of a byte sequence, part by part. -/
inductive Reads : List UInt8 → List Char → Prop where
  | nil : Reads [] []
  | cons {part rest : List UInt8} {c : Char} {cs : List Char} :
      ReadsAs part rest c → Reads rest cs → Reads (part ++ rest) (c :: cs)

/-! ### One part at a time -/

theorem IsBeginning.tail {a : UInt8} {t : List UInt8} (h : IsBeginning (a :: t)) :
    t.length + 1 ≤ width a ∧ tailOk a t = true := by
  obtain ⟨c, hc⟩ := h
  obtain ⟨a', t', he, hlen, hok⟩ := encode_shape c
  rw [he, List.cons_prefix_cons] at hc
  obtain ⟨rfl, hpre⟩ := hc
  have hle := hpre.length_le
  exact ⟨by omega, tailOk_of_prefix hpre hok⟩

theorem isBeginning_of_three {a b : UInt8} (ha : width a = 3) (hb : secondOk a b = true) :
    IsBeginning [a, b] :=
  ⟨char3 a b 0x80, by rw [encode_char3 ha hb (by decide)]; exact ⟨[0x80], rfl⟩⟩

theorem isBeginning_of_four {a b : UInt8} (ha : width a = 4) (hb : secondOk a b = true) :
    IsBeginning [a, b] :=
  ⟨char4 a b 0x80 0x80, by
    rw [encode_char4 ha hb (by decide) (by decide)]; exact ⟨[0x80, 0x80], rfl⟩⟩

theorem isBeginning_third {a b c : UInt8} (ha : width a = 4) (hb : secondOk a b = true)
    (hc : isContinuation c = true) : IsBeginning [a, b, c] :=
  ⟨char4 a b c 0x80, by rw [encode_char4 ha hb hc (by decide)]; exact ⟨[0x80], rfl⟩⟩

/-- Where the byte behind `t` is out of range, no beginning reaches it. -/
theorem IsBeginning.length_le_of_stop {a : UInt8} {t rest longer : List UInt8}
    (hstop : ∀ x more, rest = x :: more → t.length + 1 < width a →
      tailOk a (t ++ [x]) = false)
    (hpre : longer <+: a :: t ++ rest) (h : IsBeginning longer) :
    longer.length ≤ t.length + 1 := by
  cases longer with
  | nil => simp
  | cons a' t' =>
      simp only [List.cons_append, List.cons_prefix_cons] at hpre
      obtain ⟨rfl, hpre⟩ := hpre
      obtain ⟨hlen, hok⟩ := h.tail
      refine Nat.not_lt.1 fun hlong => ?_
      simp only [List.length_cons] at hlong
      obtain ⟨more, rfl⟩ : t <+: t' :=
        List.prefix_of_prefix_length_le (List.prefix_append t rest) hpre (by omega)
      have hmore := (List.prefix_append_right_inj t).1 hpre
      cases more with
      | nil => simp at hlong
      | cons x more =>
          obtain ⟨rest', rfl⟩ := hmore
          simp only [List.length_append, List.length_cons] at hlen
          have hx := hstop x (more ++ rest') rfl (by omega)
          have hok' : tailOk a' (t ++ [x]) = true := tailOk_of_prefix (by simp) hok
          rw [hok'] at hx
          cases hx

/-- A leading byte with too few good bytes behind it is an ill-formed part
together with the good ones. -/
theorem isIllFormed_of_stop {a : UInt8} {t rest : List UInt8}
    (hlen : t.length + 1 ≠ width a) (hbegin : t = [] ∨ IsBeginning (a :: t))
    (hstop : ∀ x more, rest = x :: more → t.length + 1 < width a →
      tailOk a (t ++ [x]) = false) :
    IsIllFormed (a :: t) rest where
  ne_nil := by simp
  noCharacter c hc := by
    obtain ⟨a', t', he, hwhole, -⟩ := encode_shape c
    have hle := IsBeginning.length_le_of_stop hstop hc ⟨c, List.prefix_refl _⟩
    rw [he] at hc hle
    simp only [List.cons_append, List.cons_prefix_cons, List.length_cons] at hc hle
    obtain ⟨rfl, -⟩ := hc
    rcases hbegin with rfl | hbegin
    · simp only [List.length_nil] at hle hlen
      omega
    · have hshort := hbegin.tail.1
      omega
  begins := hbegin.imp (by rintro rfl; rfl) id
  longest longer hpre h := by
    simpa using h.length_le_of_stop hstop hpre

theorem IsIllFormed.length_le {part rest : List UInt8} (h : IsIllFormed part rest) :
    part.length ≤ 4 := by
  rcases h.begins with hone | ⟨c, hc⟩
  · omega
  · exact Nat.le_trans hc.length_le (encode_length_le c)

/-- An ill-formed part stays one when bytes behind it are taken away. -/
theorem IsIllFormed.of_append {part rest more : List UInt8}
    (h : IsIllFormed part (rest ++ more)) : IsIllFormed part rest where
  ne_nil := h.ne_nil
  noCharacter c hc := h.noCharacter c (by
    rw [← List.append_assoc]
    exact hc.trans (List.prefix_append _ _))
  begins := h.begins
  longest longer hpre hbegin := h.longest longer (by
    rw [← List.append_assoc]
    exact hpre.trans (List.prefix_append _ _)) hbegin

/-- Two ill-formed parts at the front of one sequence have the same length. -/
theorem IsIllFormed.length_le_length {part part' rest rest' : List UInt8}
    (h : IsIllFormed part rest) (h' : IsIllFormed part' rest')
    (heq : part ++ rest = part' ++ rest') : part'.length ≤ part.length := by
  rcases h'.begins with hone | hbegin
  · have hpos := List.length_pos_iff.2 h.ne_nil
    omega
  · exact h.longest part' (heq ▸ List.prefix_append _ _) hbegin

namespace ReadsAs

variable {part rest : List UInt8} {c : Char}

theorem ne_nil (h : ReadsAs part rest c) : part ≠ [] := by
  cases h with
  | character =>
      obtain ⟨a, t, he, -⟩ := encode_shape c
      simp [he]
  | illFormed h => exact h.ne_nil

theorem length_le (h : ReadsAs part rest c) : part.length ≤ 4 := by
  cases h with
  | character => exact encode_length_le c
  | illFormed h => exact h.length_le

theorem of_append {more : List UInt8} (h : ReadsAs part (rest ++ more) c) :
    ReadsAs part rest c := by
  cases h with
  | character => exact .character c rest
  | illFormed h => exact .illFormed h.of_append

/-- The part at the front of a sequence, and what it is read as, are settled by
the sequence. -/
theorem unique {part' rest' : List UInt8} {c' : Char} (h : ReadsAs part rest c)
    (h' : ReadsAs part' rest' c') (heq : part ++ rest = part' ++ rest') :
    part = part' ∧ rest = rest' ∧ c = c' := by
  cases h with
  | character =>
      cases h' with
      | character =>
          obtain rfl := encode_append_inj heq
          exact ⟨rfl, List.append_cancel_left heq, rfl⟩
      | illFormed h' => exact absurd (heq ▸ List.prefix_append _ _) (h'.noCharacter c)
  | illFormed h =>
      cases h' with
      | character => exact absurd (heq ▸ List.prefix_append _ _) (h.noCharacter c')
      | illFormed h' =>
          have hlen : part.length = part'.length :=
            Nat.le_antisymm (h'.length_le_length h heq.symm) (h.length_le_length h' heq)
          obtain ⟨hpart, hrest⟩ := List.append_inj heq hlen
          exact ⟨hpart, hrest, rfl⟩

/-- A leading byte that no fitting byte follows is read by itself. -/
theorem lone {a : UInt8} (ha : width a ≠ 1)
    (hstop : ∀ b more, rest = b :: more → 1 < width a → ¬ secondOk a b = true) :
    ReadsAs [a] rest replacement := by
  refine .illFormed (isIllFormed_of_stop (by simpa using Ne.symm ha) (.inl rfl) ?_)
  intro b more hrest hw
  simpa [tailOk] using hstop b more hrest (by simpa using hw)

/-- A sequence that breaks off behind its second byte or later is read as
one part. -/
theorem cutShort {a b : UInt8} {t : List UInt8} (hlen : t.length + 2 < width a)
    (hbegin : IsBeginning (a :: b :: t))
    (hstop : ∀ x more, rest = x :: more → ¬ isContinuation x = true) :
    ReadsAs (a :: b :: t) rest replacement := by
  refine .illFormed (isIllFormed_of_stop ?_ (.inr hbegin) ?_)
  · simp only [List.length_cons]
    omega
  · intro x more hrest _
    have hx := hstop x more hrest
    simp_all [tailOk]

/-- A complete sequence is read as the character that it encodes. -/
theorem whole (h : String.utf8EncodeChar c = part) : ReadsAs part rest c :=
  h ▸ .character c rest

end ReadsAs

/-! ## The scan finds the reading -/

theorem Reads.unique {bytes : List UInt8} {cs cs' : List Char} (h : Reads bytes cs)
    (h' : Reads bytes cs') : cs = cs' := by
  induction h generalizing cs' with
  | nil =>
      generalize hb : ([] : List UInt8) = bytes at h'
      cases h' with
      | nil => rfl
      | cons hpart _ => exact absurd (List.append_eq_nil_iff.1 hb.symm).1 hpart.ne_nil
  | @cons part rest c cs hpart _ ih =>
      generalize hb : part ++ rest = bytes at h'
      cases h' with
      | nil => exact absurd (List.append_eq_nil_iff.1 hb).1 hpart.ne_nil
      | cons hpart' hrest' =>
          obtain ⟨rfl, rfl, rfl⟩ := hpart.unique hpart' hb
          rw [ih hrest']

/-- The characters of a scan. -/
theorem reads_scan (bytes : List UInt8) :
    Reads bytes ((scan bytes).map (·.getD replacement)) := by
  fun_induction scan bytes with
  | case1 => exact .nil
  | case2 a s ha ih =>
      rw [List.map_cons, Option.getD_some]
      exact (Reads.cons (.whole (encode_char1 ha)) ih :)
  | case3 a ha => exact .cons (.lone (by omega) (by simp)) .nil
  | case4 a ha b t hb ih =>
      rw [List.map_cons, Option.getD_some]
      exact (Reads.cons (.whole (encode_char2 ha hb)) ih :)
  | case5 a ha b t hb ih => exact .cons (.lone (by omega) (by simp [hb])) ih
  | case6 a ha => exact .cons (.lone (by omega) (by simp)) .nil
  | case7 a ha b hb =>
      exact (Reads.cons (.cutShort (by simp [ha]) (isBeginning_of_three ha hb) (by simp)) .nil :)
  | case8 a ha b hb ih => exact .cons (.lone (by omega) (by simp [hb])) ih
  | case9 a ha b c u hb hc ih =>
      rw [List.map_cons, Option.getD_some]
      exact (Reads.cons (.whole (encode_char3 ha hb hc)) ih :)
  | case10 a ha b c u hb hc ih =>
      exact (Reads.cons
        (.cutShort (by simp [ha]) (isBeginning_of_three ha hb) (by simp [hc])) ih :)
  | case11 a ha b c u hb ih => exact .cons (.lone (by omega) (by simp [hb])) ih
  | case12 a ha => exact .cons (.lone (by omega) (by simp)) .nil
  | case13 a ha b hb =>
      exact (Reads.cons (.cutShort (by simp [ha]) (isBeginning_of_four ha hb) (by simp)) .nil :)
  | case14 a ha b hb ih => exact .cons (.lone (by omega) (by simp [hb])) ih
  | case15 a ha b c hb hc =>
      exact (Reads.cons (.cutShort (by simp [ha]) (isBeginning_third ha hb hc) (by simp)) .nil :)
  | case16 a ha b c hb hc ih =>
      exact (Reads.cons
        (.cutShort (by simp [ha]) (isBeginning_of_four ha hb) (by simp [hc])) ih :)
  | case17 a ha b c hb ih => exact .cons (.lone (by omega) (by simp [hb])) ih
  | case18 a ha b c d v hb hc hd ih =>
      rw [List.map_cons, Option.getD_some]
      exact (Reads.cons (.whole (encode_char4 ha hb hc hd)) ih :)
  | case19 a ha b c d v hb hc hd ih =>
      exact (Reads.cons
        (.cutShort (by simp [ha]) (isBeginning_third ha hb hc) (by simp [hd])) ih :)
  | case20 a ha b c d v hb hc ih =>
      exact (Reads.cons
        (.cutShort (by simp [ha]) (isBeginning_of_four ha hb) (by simp [hc])) ih :)
  | case21 a ha b c d v hb ih => exact .cons (.lone (by omega) (by simp [hb])) ih
  | case22 a s h1 h2 h3 h4 ih =>
      have h0 : width a = 0 := by
        have hle := width_le a
        grind
      exact .cons (.lone h1 (by simp [h0])) ih

theorem reads_decodeLossy (bytes : List UInt8) : Reads bytes (decodeLossy bytes).toList := by
  rw [decodeLossy, String.toList_ofList]
  exact reads_scan bytes

/-- Every byte sequence has exactly one lossy reading, the one that `decodeLossy`
finds. -/
theorem reads_iff {bytes : List UInt8} {text : String} :
    Reads bytes text.toList ↔ text = decodeLossy bytes := by
  constructor
  · intro h
    exact String.toList_inj.1 (h.unique (reads_decodeLossy bytes))
  · rintro rfl
    exact reads_decodeLossy bytes

/-! ## Reading a beginning of the bytes -/

/-- A reading that begins with `4 * k` given bytes has at least `k` characters,
and the first `k` of them are those of the given bytes alone, as no part is longer than four
bytes. -/
theorem Reads.take_eq {front more : List UInt8} {cs cs' : List Char} {k : Nat}
    (h : Reads (front ++ more) cs) (h' : Reads front cs') (hk : 4 * k ≤ front.length) :
    cs'.take k = cs.take k ∧ k ≤ cs'.length := by
  induction k generalizing front cs cs' with
  | zero => simp
  | succ k ih =>
      generalize hb : front ++ more = bytes at h
      cases h with
      | nil =>
          obtain ⟨rfl, -⟩ := List.append_eq_nil_iff.1 hb
          simp only [List.length_nil] at hk
          omega
      | @cons part rest c cs hpart hrest =>
          have hlen := hpart.length_le
          obtain ⟨front', rfl⟩ : part <+: front :=
            List.prefix_of_prefix_length_le ⟨rest, hb.symm⟩ (List.prefix_append _ _) (by omega)
          rw [List.append_assoc] at hb
          obtain rfl := List.append_cancel_left hb
          obtain rfl := h'.unique (.cons hpart.of_append (reads_scan front'))
          rw [List.length_append] at hk
          obtain ⟨htake, hcount⟩ := ih hrest (reads_scan front') (by omega)
          constructor
          · rw [List.take_succ_cons, List.take_succ_cons, htake]
          · rw [List.length_cons]
            omega

/-- What follows `4 * k` bytes has no say in the first `k` characters. -/
theorem take_decodeLossy_append {front : List UInt8} (more : List UInt8) {k : Nat}
    (hk : 4 * k ≤ front.length) :
    (decodeLossy front).toList.take k = (decodeLossy (front ++ more)).toList.take k :=
  (Reads.take_eq (reads_decodeLossy _) (reads_decodeLossy front) hk).1

/-- There are at least `k` characters in `4 * k` bytes. -/
theorem le_length_decodeLossy {bytes : List UInt8} {k : Nat} (hk : 4 * k ≤ bytes.length) :
    k ≤ (decodeLossy bytes).length := by
  rw [← String.length_toList]
  have h := reads_decodeLossy bytes
  exact (Reads.take_eq (by rwa [List.append_nil]) h hk).2

end ContentPreview.Text.Utf8
