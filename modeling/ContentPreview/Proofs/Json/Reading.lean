import ContentPreview.Json.Reader
import ContentPreview.Json.Writer

/-!
# The texts that are read as a value

A JSON value has many texts, since blanks may stand between any two tokens.  The reader
makes one value of all of them, and so it does not matter which layout a text was written
in.  `IsText` is the grammar of these texts, as far as values can be written at all: the
tokens are spelled as they are written, and the blanks are free.

The reader looks at what is behind a value only where a number ends, since any further
digit would belong to it.  So the text behind a value must not begin like the rest of a
number (`Ends`), and between the tokens of a text it never does.

Each call of the reader hands on one step less than it was given and reads at least one
character, and so a text never needs more steps than it has characters.

## Main definitions

* `Value.IsScalar` — the values that are written as one token.
* `IsText`, `IsItems`, `IsFields` — the texts of values, items and fields.

## Main results

* `readString_of_writeString` — a string is read back, whatever characters it holds.
* `readNumber_of_writeInteger` — an integer is read back.
* `readValue_of_isText` — a text is read as its value, and what is behind it is left.
* `read_of_isText` — the value of a text.
-/

namespace ContentPreview.Json

/-! ## Blanks -/

/-- Blanks, as they may stand between two tokens. -/
def IsGap (gap : List Char) : Prop := ∀ c ∈ gap, isSpace c = true

theorem isGap_nil : IsGap [] := fun _ hc => nomatch hc

theorem skipSpace_gap {gap : List Char} (h : IsGap gap) (cs : List Char) :
    skipSpace (gap ++ cs) = skipSpace cs := by
  induction gap with
  | nil => rfl
  | cons c gap ih =>
      have hc : isSpace c = true := h c List.mem_cons_self
      unfold skipSpace at ih ⊢
      rw [List.cons_append, List.dropWhile_cons_of_pos hc]
      exact ih fun d hd => h d (List.mem_cons_of_mem c hd)

theorem skipSpace_cons {c : Char} (h : isSpace c = false) (cs : List Char) :
    skipSpace (c :: cs) = c :: cs := by
  unfold skipSpace
  rw [List.dropWhile_cons_of_neg (by simp [h])]

/-- What is behind a gap. -/
theorem skipSpace_gap_cons {gap : List Char} (hgap : IsGap gap) {c : Char}
    (h : isSpace c = false) (cs : List Char) : skipSpace (gap ++ c :: cs) = c :: cs := by
  rw [skipSpace_gap hgap, skipSpace_cons h]

/-! ## Strings -/

theorem readElements_escape {e c : Char} (h : escapes.lookup e = some c) (hcode : e ≠ 'u')
    (cs : List Char) :
    readElements ('\\' :: e :: cs) =
      (readElements cs).map fun (es, rest) => (.char c :: es, rest) := by
  rw [readElements]
  · rw [h]
    cases readElements cs <;> rfl
  · rintro _ _ _ _ _ rfl
    exact absurd rfl hcode

/-- The letter that escapes a character, one of five, stands for it, and is not the one in
front of a code. -/
theorem lookup_escapes {c letter : Char} (h : shortEscape? c = some letter) :
    escapes.lookup letter = some c ∧ letter ≠ 'u' := by
  unfold shortEscape? at h
  repeat' split at h
  all_goals cases h
  all_goals subst_vars
  all_goals decide

/-- The codes of control characters are read back. -/
theorem hexCode?_control : ∀ n < 32,
    hexCode? '0' '0' (Text.smallHexDigit (n / 16)) (Text.smallHexDigit (n % 16)) = some n := by
  decide

theorem readElements_code {c : Char} (h : c < ' ') (cs : List Char) :
    readElements ('\\' :: 'u' :: '0' :: '0' :: Text.smallHexDigit (c.toNat / 16) ::
        Text.smallHexDigit (c.toNat % 16) :: cs) =
      (readElements cs).map fun (es, rest) => (.char c :: es, rest) := by
  have hcontrol : c.toNat < 32 := h
  have hchar : Element.ofCode c.toNat = .char c := by
    unfold Element.ofCode
    rw [if_neg (by omega), Char.ofNat_toNat]
  rw [readElements, hexCode?_control c.toNat hcontrol]
  simp only [Option.bind_eq_bind, Option.bind_some, hchar]
  cases readElements cs <;> rfl

theorem readElements_plain {c : Char} (hquote : c ≠ '"') (hslash : c ≠ '\\') (h : ¬ c < ' ')
    (cs : List Char) :
    readElements (c :: cs) = (readElements cs).map fun (es, rest) => (.char c :: es, rest) := by
  rw [readElements]
  · rw [if_neg (by simp [h, hslash])]
    cases readElements cs <;> rfl
  · exact hquote
  · exact fun _ _ _ _ _ heq => absurd heq hslash
  · exact fun _ _ heq => absurd heq hslash

theorem readElements_writeChar (c : Char) (cs : List Char) :
    readElements (writeChar c ++ cs) =
      (readElements cs).map fun (es, rest) => (.char c :: es, rest) := by
  unfold writeChar
  by_cases hquote : c = '"'
  · subst hquote
    exact readElements_escape rfl (by decide) cs
  rw [if_neg hquote]
  by_cases hslash : c = '\\'
  · subst hslash
    exact readElements_escape rfl (by decide) cs
  rw [if_neg hslash]
  cases hshort : shortEscape? c with
  | some letter =>
      obtain ⟨hletter, hcode⟩ := lookup_escapes hshort
      exact readElements_escape hletter hcode cs
  | none =>
      dsimp only
      by_cases hcontrol : c < ' '
      · rw [if_pos hcontrol]
        exact readElements_code hcontrol cs
      · rw [if_neg hcontrol]
        exact readElements_plain hquote hslash hcontrol cs

theorem readElements_flatMap_writeChar (text rest : List Char) :
    readElements (text.flatMap writeChar ++ '"' :: rest) = some (text.map .char, rest) := by
  induction text with
  | nil => rw [List.flatMap_nil, List.nil_append, readElements, List.map_nil]
  | cons c text ih =>
      rw [List.flatMap_cons, List.append_assoc, readElements_writeChar, ih, List.map_cons]
      rfl

theorem joinHalves_map_char (text : List Char) : joinHalves (text.map .char) = some text := by
  induction text with
  | nil => rfl
  | cons c text ih => rw [List.map_cons, joinHalves, ih, Option.map_some]

/-- A string is read back from behind its opening quote. -/
theorem readString_of_writeString (text : String) (rest : List Char) :
    readString (text.toList.flatMap writeChar ++ '"' :: rest) = some (some text, rest) := by
  unfold readString
  rw [readElements_flatMap_writeChar]
  simp only [Option.bind_eq_bind, Option.bind_some, joinHalves_map_char, Option.map_some,
    String.ofList_toList]
  rfl

/-! ## Numbers -/

/-- A text that does not begin like the rest of a number. -/
def Ends (rest : List Char) : Prop :=
  ∀ c ∈ rest.head?, c.isDigit = false ∧ c ≠ '.' ∧ c ≠ 'e' ∧ c ≠ 'E'

theorem ends_nil : Ends [] := fun _ hc => nomatch hc

/-- A number ends at a blank, a comma or a closing bracket. -/
theorem ends_gap_cons {gap : List Char} (hgap : IsGap gap) {c : Char}
    (hc : c ∈ [',', ']', '\x7d']) (rest : List Char) : Ends (gap ++ c :: rest) := by
  have hall : ∀ d ∈ [',', ']', '\x7d', ' ', '\n', '\t', '\r'],
      d.isDigit = false ∧ d ≠ '.' ∧ d ≠ 'e' ∧ d ≠ 'E' := by
    simp only [List.mem_cons, List.not_mem_nil, or_false]
    rintro d (rfl | rfl | rfl | rfl | rfl | rfl | rfl) <;> decide
  cases gap with
  | nil =>
      rintro d hd
      obtain rfl := Option.some.inj hd
      exact hall _ (List.mem_append_left [' ', '\n', '\t', '\r'] hc)
  | cons blank gap =>
      rintro d hd
      obtain rfl := Option.some.inj hd
      have hblank := hgap blank List.mem_cons_self
      simp only [isSpace, Bool.or_eq_true, beq_iff_eq] at hblank
      refine hall _ ?_
      rcases hblank with ((rfl | rfl) | rfl) | rfl <;> decide

theorem takeWhile_isDigit {digits rest : List Char} (h : ∀ c ∈ digits, c.isDigit = true)
    (hrest : Ends rest) : (digits ++ rest).takeWhile Char.isDigit = digits ∧
      (digits ++ rest).dropWhile Char.isDigit = rest := by
  induction digits with
  | nil =>
      cases rest with
      | nil => exact ⟨rfl, rfl⟩
      | cons c rest =>
          have hc : ¬ c.isDigit = true := by simp [(hrest c rfl).1]
          exact ⟨List.takeWhile_cons_of_neg hc, List.dropWhile_cons_of_neg hc⟩
  | cons c digits ih =>
      have hc := h c List.mem_cons_self
      obtain ⟨htake, hdrop⟩ := ih fun d hd => h d (List.mem_cons_of_mem c hd)
      rw [List.cons_append, List.takeWhile_cons_of_pos hc, List.dropWhile_cons_of_pos hc, htake]
      exact ⟨rfl, hdrop⟩

theorem isDigit_of_mem_toDigits {n : Nat} {c : Char} (h : c ∈ Nat.toDigits 10 n) :
    c.isDigit = true := Nat.isDigit_of_mem_toDigits (by decide) (by decide) h

/-- The digits of a number do not begin with a zero. -/
theorem head?_toDigits_ne_zero {n : Nat} (h : n ≠ 0) : (Nat.toDigits 10 n).head? ≠ some '0' := by
  induction n using Nat.strongRecOn with
  | ind n ih =>
      rw [Nat.toDigits_eq_if (by decide)]
      by_cases hsmall : n < 10
      · have hall : ∀ d < 10, d ≠ 0 → [d.digitChar].head? ≠ some '0' := by decide
        rw [if_pos hsmall]
        exact hall n hsmall h
      · have hhead := ih (n / 10) (by omega) (by omega)
        rw [if_neg hsmall]
        cases hdigits : Nat.toDigits 10 (n / 10) with
        | nil => exact absurd hdigits Nat.toDigits_ne_nil
        | cons c cs =>
            rw [hdigits] at hhead
            exact hhead

theorem readFraction_of_ends {rest : List Char} (h : Ends rest) :
    readFraction rest = some (false, rest) := by
  unfold readFraction
  split
  · exact absurd rfl (h _ rfl).2.1
  · rfl

theorem readExponent_of_ends {rest : List Char} (h : Ends rest) :
    readExponent rest = some (false, rest) := by
  unfold readExponent
  cases rest with
  | nil => rfl
  | cons c rest =>
      obtain ⟨-, -, hsmall, hcapital⟩ := h c rfl
      exact if_neg (by simp [hsmall, hcapital])

/-- The digits of a number are read as that number; there is no negative zero. -/
theorem readMagnitude_toDigits {negative : Bool} {n : Nat} (h : negative = true → n ≠ 0)
    {rest : List Char} (hrest : Ends rest) :
    readMagnitude negative (Nat.toDigits 10 n ++ rest) =
      some (.integer (if negative then -Int.ofNat n else Int.ofNat n), rest) := by
  have hdigits : readDigits (Nat.toDigits 10 n ++ rest) = some (Nat.toDigits 10 n, rest) := by
    obtain ⟨htake, hdrop⟩ := takeWhile_isDigit (fun _ hc => isDigit_of_mem_toDigits hc) hrest
    unfold readDigits
    rw [htake, hdrop]
    exact if_neg Nat.toDigits_ne_nil
  have hzero : ¬ ((Nat.toDigits 10 n).head? = some '0' ∧ (Nat.toDigits 10 n).length ≠ 1) := by
    rintro ⟨hhead, hlength⟩
    by_cases hn : n = 0
    · subst hn
      exact hlength rfl
    · exact head?_toDigits_ne_zero hn hhead
  have hnegative : (negative && n == 0) = false := by
    cases negative with
    | false => rfl
    | true => simpa using h rfl
  unfold readMagnitude
  simp only [hdigits, Option.bind_eq_bind, Option.bind_some, if_neg hzero,
    readFraction_of_ends hrest, readExponent_of_ends hrest, Nat.ofDigitChars_ten_toDigits,
    Bool.false_or, hnegative, Bool.false_eq_true, if_false]
  rfl

/-- What an integer begins with. -/
theorem exists_cons_writeInteger (n : Int) :
    ∃ c cs, writeInteger n = c :: cs ∧ (c = '-' ∨ c.isDigit = true) := by
  cases n with
  | ofNat n =>
      cases hdigits : Nat.toDigits 10 n with
      | nil => exact absurd hdigits Nat.toDigits_ne_nil
      | cons c cs =>
          exact ⟨c, cs, hdigits, Or.inr (isDigit_of_mem_toDigits (hdigits ▸ List.mem_cons_self))⟩
  | negSucc n => exact ⟨'-', _, rfl, Or.inl rfl⟩

/-- An integer is read back. -/
theorem readNumber_of_writeInteger (n : Int) {rest : List Char} (hrest : Ends rest) :
    readNumber (writeInteger n ++ rest) = some (.integer n, rest) := by
  cases n with
  | ofNat n =>
      have hfirst : readNumber (Nat.toDigits 10 n ++ rest) =
          readMagnitude false (Nat.toDigits 10 n ++ rest) := by
        cases hdigits : Nat.toDigits 10 n with
        | nil => exact absurd hdigits Nat.toDigits_ne_nil
        | cons c cs =>
            have hdigit : c.isDigit = true := isDigit_of_mem_toDigits (hdigits ▸ List.mem_cons_self)
            have hsign : c ≠ '-' := by
              rintro rfl
              cases hdigit
            rw [List.cons_append, readNumber]
            exact fun _ heq => absurd (List.cons.inj heq).1 hsign
      rw [writeInteger, hfirst, readMagnitude_toDigits (fun h => absurd h Bool.false_ne_true) hrest]
      rfl
  | negSucc n =>
      rw [writeInteger, List.cons_append, readNumber,
        readMagnitude_toDigits (fun _ => Nat.succ_ne_zero n) hrest]
      rfl

/-! ## Values -/

/-- A value that is written as one token, and that has a text. -/
def Value.IsScalar : Value → Prop
  | .null | .bool _ | .integer _ | .string (some _) => True
  | .fractional | .string none | .list _ | .object _ => False

mutual

/-- The texts of a value. -/
inductive IsText : Value → List Char → Prop where
  | scalar {v : Value} (h : v.IsScalar) : IsText v (writeScalar v)
  | emptyList {gap : List Char} (hgap : IsGap gap) : IsText (.list []) ('[' :: (gap ++ [']']))
  | list {items : List Value} {gap cs : List Char} (hgap : IsGap gap) (h : IsItems items cs) :
      IsText (.list items) ('[' :: (gap ++ cs))
  | emptyObject {gap : List Char} (hgap : IsGap gap) :
      IsText (.object []) ('\x7b' :: (gap ++ ['\x7d']))
  | object {fields : List (Option String × Value)} {gap cs : List Char} (hgap : IsGap gap)
      (h : IsFields fields cs) : IsText (.object fields) ('\x7b' :: (gap ++ cs))

/-- The texts of the items of a list, up to the closing bracket. -/
inductive IsItems : List Value → List Char → Prop where
  | last {v : Value} {cs gap : List Char} (h : IsText v cs) (hgap : IsGap gap) :
      IsItems [v] (cs ++ (gap ++ [']']))
  | more {v : Value} {items : List Value} {cs gap behind ds : List Char} (h : IsText v cs)
      (hgap : IsGap gap) (hbehind : IsGap behind) (hitems : IsItems items ds) :
      IsItems (v :: items) (cs ++ (gap ++ ',' :: (behind ++ ds)))

/-- The texts of the fields of an object, up to the closing brace. -/
inductive IsFields : List (Option String × Value) → List Char → Prop where
  | last {name : String} {v : Value} {cs before value gap : List Char} (h : IsText v cs)
      (hbefore : IsGap before) (hvalue : IsGap value) (hgap : IsGap gap) :
      IsFields [(some name, v)]
        (writeString name ++ (before ++ ':' :: (value ++ (cs ++ (gap ++ ['\x7d'])))))
  | more {name : String} {v : Value} {fields : List (Option String × Value)}
      {cs before value gap behind ds : List Char} (h : IsText v cs) (hbefore : IsGap before)
      (hvalue : IsGap value) (hgap : IsGap gap) (hbehind : IsGap behind)
      (hfields : IsFields fields ds) :
      IsFields ((some name, v) :: fields)
        (writeString name ++ (before ++ ':' :: (value ++ (cs ++ (gap ++ ',' :: (behind ++ ds))))))

end

/-! ### What a text begins with -/

theorem isSpace_of_isDigit {c : Char} (h : c.isDigit = true) : isSpace c = false := by
  cases hspace : isSpace c with
  | false => rfl
  | true =>
      simp only [isSpace, Bool.or_eq_true, beq_iff_eq] at hspace
      rcases hspace with ((rfl | rfl) | rfl) | rfl <;> cases h

/-- A text begins with a token other than a closing bracket. -/
theorem IsText.exists_cons {v : Value} {cs : List Char} (h : IsText v cs) :
    ∃ c rest, cs = c :: rest ∧ isSpace c = false ∧ c ≠ ']' := by
  cases h with
  | scalar h =>
      cases v with
      | null => exact ⟨_, _, rfl, by decide, by decide⟩
      | bool b => cases b <;> exact ⟨_, _, rfl, by decide, by decide⟩
      | integer n =>
          obtain ⟨c, rest, hcs, rfl | hdigit⟩ := exists_cons_writeInteger n
          · exact ⟨_, _, hcs, by decide, by decide⟩
          · refine ⟨_, _, hcs, isSpace_of_isDigit hdigit, ?_⟩
            rintro rfl
            cases hdigit
      | string text =>
          cases text with
          | none => cases h
          | some text => exact ⟨_, _, rfl, by decide, by decide⟩
      | fractional => cases h
      | list items => cases h
      | object fields => cases h
  | emptyList => exact ⟨_, _, rfl, by decide, by decide⟩
  | list => exact ⟨_, _, rfl, by decide, by decide⟩
  | emptyObject => exact ⟨_, _, rfl, by decide, by decide⟩
  | object => exact ⟨_, _, rfl, by decide, by decide⟩

theorem IsItems.exists_cons {items : List Value} {cs : List Char} (h : IsItems items cs) :
    ∃ c rest, cs = c :: rest ∧ isSpace c = false ∧ c ≠ ']' := by
  cases h with
  | last h _ =>
      obtain ⟨c, rest, rfl, hc⟩ := h.exists_cons
      exact ⟨c, _, rfl, hc⟩
  | more h _ _ _ =>
      obtain ⟨c, rest, rfl, hc⟩ := h.exists_cons
      exact ⟨c, _, rfl, hc⟩

theorem IsFields.exists_cons {fields : List (Option String × Value)} {cs : List Char}
    (h : IsFields fields cs) : ∃ rest, cs = '"' :: rest := by
  cases h with
  | last => exact ⟨_, rfl⟩
  | more => exact ⟨_, rfl⟩

/-! ### One step of the reader -/

section Steps

variable {steps : Nat} {gap cs : List Char}

theorem readValue_gap (hgap : IsGap gap) : readValue steps (gap ++ cs) = readValue steps cs := by
  cases steps with
  | zero => rfl
  | succ steps => rw [readValue, readValue, skipSpace_gap hgap]

theorem readItems_gap (hgap : IsGap gap) : readItems steps (gap ++ cs) = readItems steps cs := by
  cases steps with
  | zero => rfl
  | succ steps => rw [readItems, readItems, readValue_gap hgap]

theorem readFields_gap (hgap : IsGap gap) : readFields steps (gap ++ cs) = readFields steps cs := by
  cases steps with
  | zero => rfl
  | succ steps => rw [readFields, readFields, skipSpace_gap hgap]

theorem readValue_number {c : Char} (h : c = '-' ∨ c.isDigit = true) :
    readValue (steps + 1) (c :: cs) = readNumber (c :: cs) := by
  have hspace : isSpace c = false := by
    rcases h with rfl | hdigit
    · rfl
    · exact isSpace_of_isDigit hdigit
  have hother (d : Char) (hd : d ∈ ['n', 't', 'f', '"', '[', '\x7b']) : c ≠ d := by
    rintro rfl
    have hall : ∀ d ∈ ['n', 't', 'f', '"', '[', '\x7b'], ¬ (d = '-' ∨ d.isDigit = true) := by
      simp only [List.mem_cons, List.not_mem_nil, or_false]
      rintro d (rfl | rfl | rfl | rfl | rfl | rfl) <;> decide
    exact hall c hd h
  rw [readValue, skipSpace_cons hspace]
  split
  · rename_i heq
    exact absurd (List.cons.inj heq).1 (hother 'n' (by decide))
  · rename_i heq
    exact absurd (List.cons.inj heq).1 (hother 't' (by decide))
  · rename_i heq
    exact absurd (List.cons.inj heq).1 (hother 'f' (by decide))
  · rename_i heq
    exact absurd (List.cons.inj heq).1 (hother '"' (by decide))
  · rename_i heq
    exact absurd (List.cons.inj heq).1 (hother '[' (by decide))
  · rename_i heq
    exact absurd (List.cons.inj heq).1 (hother '\x7b' (by decide))
  · rfl

theorem readValue_quote :
    readValue (steps + 1) ('"' :: cs) =
      (readString cs).map fun (text, rest) => (.string text, rest) := rfl

theorem readValue_bracket :
    readValue (steps + 1) ('[' :: cs) =
      match skipSpace cs with
      | ']' :: rest => some (.list [], rest)
      | rest => (readItems steps rest).map fun (items, rest) => (.list items, rest) := rfl

theorem readValue_brace :
    readValue (steps + 1) ('\x7b' :: cs) =
      match skipSpace cs with
      | '\x7d' :: rest => some (.object [], rest)
      | rest => (readFields steps rest).map fun (fields, rest) => (.object fields, rest) := rfl

theorem readItems_succ :
    readItems (steps + 1) cs =
      match readValue steps cs with
      | none => none
      | some (item, rest) =>
        match skipSpace rest with
        | ',' :: rest => (readItems steps rest).map fun (items, rest) => (item :: items, rest)
        | ']' :: rest => some ([item], rest)
        | _ => none := rfl

theorem readFields_quote :
    readFields (steps + 1) ('"' :: cs) =
      match readString cs with
      | none => none
      | some (name, rest) =>
        match skipSpace rest with
        | ':' :: rest =>
          match readValue steps rest with
          | none => none
          | some (value, rest) =>
            match skipSpace rest with
            | ',' :: rest =>
              (readFields steps rest).map fun (fields, rest) => ((name, value) :: fields, rest)
            | '\x7d' :: rest => some ([(name, value)], rest)
            | _ => none
        | _ => none := rfl

theorem readFields_name {name : Option String} {rest value : List Char}
    (hname : readString cs = some (name, rest)) (hcolon : skipSpace rest = ':' :: value) :
    readFields (steps + 1) ('"' :: cs) =
      match readValue steps value with
      | none => none
      | some (value, rest) =>
        match skipSpace rest with
        | ',' :: rest =>
          (readFields steps rest).map fun (fields, rest) => ((name, value) :: fields, rest)
        | '\x7d' :: rest => some ([(name, value)], rest)
        | _ => none := by
  rw [readFields_quote, hname]
  dsimp only
  rw [hcolon]
  rfl

/-- The items of a list begin behind the bracket and a gap. -/
theorem readValue_list {c : Char} (hgap : IsGap gap) (hc : isSpace c = false) (hclose : c ≠ ']') :
    readValue (steps + 1) ('[' :: (gap ++ c :: cs)) =
      (readItems steps (c :: cs)).map fun (items, rest) => (.list items, rest) := by
  rw [readValue_bracket, skipSpace_gap_cons hgap hc]
  split
  · rename_i heq
    exact absurd (List.cons.inj heq).1 hclose
  · rfl

/-- The fields of an object begin behind the brace and a gap. -/
theorem readValue_object (hgap : IsGap gap) :
    readValue (steps + 1) ('\x7b' :: (gap ++ '"' :: cs)) =
      (readFields steps ('"' :: cs)).map fun (fields, rest) => (.object fields, rest) := by
  rw [readValue_brace, skipSpace_gap_cons hgap (by decide)]
  rfl

/-- What follows an item of a list. -/
theorem readItems_value {v : Value} {rest : List Char}
    (h : readValue steps cs = some (v, rest)) :
    readItems (steps + 1) cs =
      match skipSpace rest with
      | ',' :: rest => (readItems steps rest).map fun (items, rest) => (v :: items, rest)
      | ']' :: rest => some ([v], rest)
      | _ => none := by
  rw [readItems_succ, h]

/-- What follows a field of an object. -/
theorem readFields_value {name : String} {v : Value} {before value rest : List Char}
    (hbefore : IsGap before) (hvalue : IsGap value) (h : readValue steps cs = some (v, rest)) :
    readFields (steps + 1) (writeString name ++ (before ++ ':' :: (value ++ cs))) =
      match skipSpace rest with
      | ',' :: rest =>
        (readFields steps rest).map fun (fields, rest) => ((some name, v) :: fields, rest)
      | '\x7d' :: rest => some ([(some name, v)], rest)
      | _ => none := by
  have hquote : writeString name ++ (before ++ ':' :: (value ++ cs)) =
      '"' :: (name.toList.flatMap writeChar ++ '"' :: (before ++ ':' :: (value ++ cs))) := by
    rw [writeString, List.cons_append, List.append_assoc]
    rfl
  rw [hquote, readFields_name (readString_of_writeString name _)
    (skipSpace_gap_cons hbefore (by decide) _), readValue_gap hvalue, h]

end Steps

/-! ### Texts are read -/

theorem readValue_of_isScalar {v : Value} (h : v.IsScalar) {steps : Nat} {rest : List Char}
    (hrest : Ends rest) : readValue (steps + 1) (writeScalar v ++ rest) = some (v, rest) := by
  cases v with
  | null => rfl
  | bool b => cases b <;> rfl
  | integer n =>
      have hread := readNumber_of_writeInteger n hrest
      obtain ⟨c, cs, hcs, hfirst⟩ := exists_cons_writeInteger n
      rw [hcs, List.cons_append] at hread
      rw [writeScalar, hcs, List.cons_append, readValue_number hfirst, hread]
  | string text =>
      cases text with
      | none => cases h
      | some text =>
          have hread := readString_of_writeString text rest
          rw [writeScalar, writeString, List.cons_append, List.append_assoc, List.cons_append,
            List.nil_append, readValue_quote, hread, Option.map_some]
  | fractional => cases h
  | list items => cases h
  | object fields => cases h

mutual

/-- A text is read as its value, if there are as many steps as characters. -/
theorem readValue_of_isText {v : Value} {cs : List Char} (h : IsText v cs) {steps : Nat}
    {rest : List Char} (hsteps : cs.length ≤ steps) (hrest : Ends rest) :
    readValue steps (cs ++ rest) = some (v, rest) := by
  obtain ⟨c, tail, hcons, -⟩ := h.exists_cons
  cases steps with
  | zero => simp [hcons] at hsteps
  | succ steps =>
      match h with
      | .scalar h => exact readValue_of_isScalar h hrest
      | .emptyList hgap =>
          rw [List.cons_append, List.append_assoc, List.cons_append, readValue_bracket,
            skipSpace_gap_cons hgap (by decide)]
          rfl
      | @IsText.list _ gap ds hgap hitems =>
          have hlength : ds.length ≤ steps := by
            simp only [List.length_cons, List.length_append] at hsteps
            omega
          have hread := readItems_of_isItems hitems hlength rest
          obtain ⟨d, ds, rfl, hspace, hclose⟩ := hitems.exists_cons
          rw [List.cons_append] at hread
          rw [List.cons_append, List.append_assoc, List.cons_append,
            readValue_list hgap hspace hclose, hread, Option.map_some]
      | .emptyObject hgap =>
          rw [List.cons_append, List.append_assoc, List.cons_append, readValue_brace,
            skipSpace_gap_cons hgap (by decide)]
          rfl
      | @IsText.object _ gap ds hgap hfields =>
          have hlength : ds.length ≤ steps := by
            simp only [List.length_cons, List.length_append] at hsteps
            omega
          have hread := readFields_of_isFields hfields hlength rest
          obtain ⟨ds, rfl⟩ := hfields.exists_cons
          rw [List.cons_append] at hread
          rw [List.cons_append, List.append_assoc, List.cons_append, readValue_object hgap, hread,
            Option.map_some]

theorem readItems_of_isItems {items : List Value} {cs : List Char} (h : IsItems items cs)
    {steps : Nat} (hsteps : cs.length ≤ steps) (rest : List Char) :
    readItems steps (cs ++ rest) = some (items, rest) := by
  cases steps with
  | zero =>
      obtain ⟨c, tail, hcons, -⟩ := h.exists_cons
      simp [hcons] at hsteps
  | succ steps =>
      match h with
      | @IsItems.last v ds gap h hgap =>
          have hlength : ds.length ≤ steps := by
            simp only [List.length_cons, List.length_append] at hsteps
            omega
          have hends := ends_gap_cons hgap (c := ']') (by decide) rest
          have hread := readValue_of_isText h hlength hends
          rw [List.append_assoc, List.append_assoc]
          rw [List.cons_append, List.nil_append, readItems_value hread,
            skipSpace_gap_cons hgap (by decide)]
          rfl
      | @IsItems.more v items ds gap behind more h hgap hbehind hitems =>
          have hlength : ds.length ≤ steps ∧ more.length ≤ steps := by
            simp only [List.length_cons, List.length_append] at hsteps
            omega
          have hread := readValue_of_isText h hlength.1
            (ends_gap_cons hgap (c := ',') (by decide) (behind ++ (more ++ rest)))
          have hmore := readItems_of_isItems hitems hlength.2 rest
          simp only [List.append_assoc, List.cons_append]
          rw [readItems_value hread, skipSpace_gap_cons hgap (by decide)]
          change (readItems steps (behind ++ (more ++ rest))).map _ = _
          rw [readItems_gap hbehind, hmore, Option.map_some]

theorem readFields_of_isFields {fields : List (Option String × Value)} {cs : List Char}
    (h : IsFields fields cs) {steps : Nat} (hsteps : cs.length ≤ steps) (rest : List Char) :
    readFields steps (cs ++ rest) = some (fields, rest) := by
  cases steps with
  | zero =>
      obtain ⟨tail, hcons⟩ := h.exists_cons
      simp [hcons] at hsteps
  | succ steps =>
      match h with
      | @IsFields.last name v ds before value gap h hbefore hvalue hgap =>
          have hlength : ds.length ≤ steps := by
            simp only [List.length_cons, List.length_append] at hsteps
            omega
          have hread := readValue_of_isText h hlength
            (ends_gap_cons hgap (c := '\x7d') (by decide) rest)
          simp only [List.append_assoc, List.cons_append, List.nil_append]
          rw [readFields_value hbefore hvalue hread, skipSpace_gap_cons hgap (by decide)]
          rfl
      | @IsFields.more name v fields ds before value gap behind more h hbefore hvalue hgap hbehind
          hfields =>
          have hlength : ds.length ≤ steps ∧ more.length ≤ steps := by
            simp only [List.length_cons, List.length_append] at hsteps
            omega
          have hread := readValue_of_isText h hlength.1
            (ends_gap_cons hgap (c := ',') (by decide) (behind ++ (more ++ rest)))
          have hmore := readFields_of_isFields hfields hlength.2 rest
          simp only [List.append_assoc, List.cons_append]
          rw [readFields_value hbefore hvalue hread, skipSpace_gap_cons hgap (by decide)]
          change (readFields steps (behind ++ (more ++ rest))).map _ = _
          rw [readFields_gap hbehind, hmore, Option.map_some]

end

/-- A text has the value that it is a text of. -/
theorem read_of_isText {v : Value} {text : String} (h : IsText v text.toList) :
    read text = some v := by
  have hread : readValue (2 * text.toList.length + 1) (text.toList ++ []) = some (v, []) :=
    readValue_of_isText h (by omega) ends_nil
  rw [List.append_nil] at hread
  unfold read
  dsimp only
  rw [hread]
  rfl

end ContentPreview.Json
