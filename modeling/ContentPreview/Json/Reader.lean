import ContentPreview.Json.Value
import ContentPreview.Text.Numeral

/-!
# Reading JSON text

A reader for JSON values that follows the grammar of the format: no comments,
no trailing commas, no leading zeros, no raw control characters in strings,
and nothing but blanks after the value.

String escapes are resolved in two steps.  The first yields characters and
halves of surrogate pairs as they are written; the second joins a high half
with the low half right after it, and gives up on a half that stands alone.

The functions on values call one another on what is left of the text, which
only gets shorter; a step bound of one more than the length of the text is
therefore never reached, and `read` supplies it.

## Main definitions

* `read` — the value of a JSON text, if it is one.
-/

namespace ContentPreview.Json

/-- The blanks between tokens. -/
def isSpace (c : Char) : Bool := c == ' ' || c == '\n' || c == '\t' || c == '\r'

/-- The text from its next token on. -/
def skipSpace (cs : List Char) : List Char := cs.dropWhile isSpace

/-! ## Strings -/

/-- One written element of a string. -/
inductive Element where
  | char (c : Char)
  /-- Half of a surrogate pair. -/
  | half (code : Nat)

/-- The code that four hexadecimal digits write. -/
def hexCode? (a b c d : Char) : Option Nat := do
  let a ← Text.hexValue? a
  let b ← Text.hexValue? b
  let c ← Text.hexValue? c
  let d ← Text.hexValue? d
  return a * 4096 + b * 256 + c * 16 + d

/-- The element that a code stands for. -/
def Element.ofCode (code : Nat) : Element :=
  if 0xD800 ≤ code ∧ code ≤ 0xDFFF then .half code else .char (Char.ofNat code)

/-- The character after a backslash in a two-character escape, with the
character it stands for. -/
def escapes : List (Char × Char) :=
  [('"', '"'), ('\\', '\\'), ('/', '/'), ('b', '\x08'), ('f', '\x0c'), ('n', '\n'),
   ('r', '\r'), ('t', '\t')]

/-- The elements up to the closing quote, and the text behind it. -/
def readElements : List Char → Option (List Element × List Char)
  | [] => none
  | '"' :: rest => some ([], rest)
  | '\\' :: 'u' :: a :: b :: c :: d :: rest => do
    let code ← hexCode? a b c d
    let (elements, rest) ← readElements rest
    return (.ofCode code :: elements, rest)
  | '\\' :: e :: rest => do
    let c ← escapes.lookup e
    let (elements, rest) ← readElements rest
    return (.char c :: elements, rest)
  | c :: rest =>
    if c < ' ' ∨ c = '\\' then none
    else do
      let (elements, rest) ← readElements rest
      return (.char c :: elements, rest)

/-- The character of a high and a low half. -/
def joinPair (high low : Nat) : Char :=
  Char.ofNat (0x10000 + (high - 0xD800) * 0x400 + (low - 0xDC00))

/-- The characters of a string, if every half is part of a pair. -/
def joinHalves : List Element → Option (List Char)
  | [] => some []
  | .char c :: rest => (joinHalves rest).map (c :: ·)
  | .half high :: .half low :: rest =>
    if high < 0xDC00 ∧ 0xDC00 ≤ low then (joinHalves rest).map (joinPair high low :: ·)
    else none
  | .half _ :: _ => none

/-- The string whose opening quote has been read. -/
def readString (cs : List Char) : Option (Option String × List Char) := do
  let (elements, rest) ← readElements cs
  return ((joinHalves elements).map String.ofList, rest)

/-! ## Numbers -/

/-- The digits at the front, of which there has to be one, and the text behind
them. -/
def readDigits (cs : List Char) : Option (List Char × List Char) :=
  let digits := cs.takeWhile Char.isDigit
  if digits = [] then none else some (digits, cs.dropWhile Char.isDigit)

/-- The text behind an optional fraction, and whether there was one. -/
def readFraction : List Char → Option (Bool × List Char)
  | '.' :: rest => (readDigits rest).map fun (_, rest) => (true, rest)
  | rest => some (false, rest)

/-- The text behind an optional exponent, and whether there was one. -/
def readExponent : List Char → Option (Bool × List Char)
  | c :: rest =>
    if c = 'e' ∨ c = 'E' then
      let digits := match rest with
        | '+' :: rest => rest
        | '-' :: rest => rest
        | rest => rest
      (readDigits digits).map fun (_, rest) => (true, rest)
    else some (false, c :: rest)
  | [] => some (false, [])

/-- The number without its sign. -/
def readMagnitude (negative : Bool) (cs : List Char) : Option (Value × List Char) := do
  let (digits, rest) ← readDigits cs
  if digits.head? = some '0' ∧ digits.length ≠ 1 then none
  let (hasFraction, rest) ← readFraction rest
  let (hasExponent, rest) ← readExponent rest
  let value := Nat.ofDigitChars 10 digits 0
  if hasFraction || hasExponent || (negative && value == 0) then return (.fractional, rest)
  else return (.integer (if negative then -Int.ofNat value else Int.ofNat value), rest)

/-- The number at the front of the text. -/
def readNumber : List Char → Option (Value × List Char)
  | '-' :: rest => readMagnitude true rest
  | rest => readMagnitude false rest

/-! ## Values -/

mutual

/-- The value at the front of the text, and the text behind it. -/
def readValue : Nat → List Char → Option (Value × List Char)
  | 0, _ => none
  | steps + 1, cs =>
    match skipSpace cs with
    | 'n' :: 'u' :: 'l' :: 'l' :: rest => some (.null, rest)
    | 't' :: 'r' :: 'u' :: 'e' :: rest => some (.bool true, rest)
    | 'f' :: 'a' :: 'l' :: 's' :: 'e' :: rest => some (.bool false, rest)
    | '"' :: rest => (readString rest).map fun (text, rest) => (.string text, rest)
    | '[' :: rest =>
      match skipSpace rest with
      | ']' :: rest => some (.list [], rest)
      | rest => (readItems steps rest).map fun (items, rest) => (.list items, rest)
    | '\x7b' :: rest =>
      match skipSpace rest with
      | '\x7d' :: rest => some (.object [], rest)
      | rest => (readFields steps rest).map fun (fields, rest) => (.object fields, rest)
    | rest => readNumber rest

/-- The items of a list from its first one on, and the text behind the closing
bracket. -/
def readItems : Nat → List Char → Option (List Value × List Char)
  | 0, _ => none
  | steps + 1, cs =>
    match readValue steps cs with
    | none => none
    | some (item, rest) =>
      match skipSpace rest with
      | ',' :: rest => (readItems steps rest).map fun (items, rest) => (item :: items, rest)
      | ']' :: rest => some ([item], rest)
      | _ => none

/-- The fields of an object from its first one on, and the text behind the
closing brace. -/
def readFields : Nat → List Char → Option (List (Option String × Value) × List Char)
  | 0, _ => none
  | steps + 1, cs =>
    match skipSpace cs with
    | '"' :: rest =>
      match readString rest with
      | none => none
      | some (name, rest) =>
        match skipSpace rest with
        | ':' :: rest =>
          match readValue steps rest with
          | none => none
          | some (value, rest) =>
            match skipSpace rest with
            | ',' :: rest =>
              (readFields steps rest).map fun (fields, rest) => ((name, value) :: fields, rest)
            | '\x7d' :: rest => some ([(name, value)], rest)
            | _ => none
        | _ => none
    | _ => none

end

/-- The value of a JSON text, if it is one. -/
def read (text : String) : Option Value :=
  let cs := text.toList
  match readValue (2 * cs.length + 1) cs with
  | some (value, rest) => if skipSpace rest = [] then some value else none
  | none => none

end ContentPreview.Json
