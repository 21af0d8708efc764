import ContentPreview.Text.Numeral

/-!
# Lines and quoted text of a settings file

What stands between the tokens of a settings file, and the texts that stand
between quotes.

## Main definitions

* `skipSpace`, `skipFiller` — passing over blanks, and over comments and line
  breaks as well.
* `endLine` — passing over the end of a line.
* `readBasic`, `readLiteral` — text in one line.
* `skipBasicBlock`, `skipLiteralBlock` — text between three quotes.
-/

namespace ContentPreview.Toml

/-! ## Lines

The characters between the tokens are blanks, comments and line breaks.  A line
ends with a line feed, which a return character may precede; a return character
elsewhere is refused, like all control characters but the tabulator.
-/

/-- Blanks within a line. -/
def isSpace (c : Char) : Bool := c == ' ' || c == '\t'

/-- The text from its next token on. -/
def skipSpace (cs : List Char) : List Char := cs.dropWhile isSpace

/-- Characters that may not stand in a line. -/
def isControl (c : Char) : Bool := (c < ' ' && c != '\t') || c == '\x7f'

/-- The text from its next token on, be it in another line. -/
def skipFiller (inComment : Bool) : List Char → Option (List Char)
  | [] => some []
  | '\n' :: rest => skipFiller false rest
  | '\r' :: '\n' :: rest => skipFiller false rest
  | c :: rest =>
    if inComment then if isControl c then none else skipFiller true rest
    else if isSpace c then skipFiller false rest
    else if c = '#' then skipFiller true rest
    else some (c :: rest)

/-- The text behind the line, of which at most a comment may be left. -/
def endLine (inComment : Bool) : List Char → Option (List Char)
  | [] => some []
  | '\n' :: rest => some rest
  | '\r' :: '\n' :: rest => some rest
  | c :: rest =>
    if inComment then if isControl c then none else endLine true rest
    else if isSpace c then endLine false rest
    else if c = '#' then endLine true rest
    else none

/-! ## Quoted text

Text between double quotes may hold escapes, text between single quotes
stands as it is.  Either kind may also be written between three quotes; it
then may hold line breaks and up to two quotes in a row, also right before
the closing ones.

The text matters only in keys, which are written in one line, so the readers
of text between three quotes only tell where it ends.
-/

/-- The number that hexadecimal digits write. -/
def hexNumber? (digits : List Char) : Option Nat :=
  digits.foldlM (fun known c => (Text.hexValue? c).map (16 * known + ·)) 0

/-- The character of a code point, surrogates excepted. -/
def charOf? (code : Nat) : Option Char :=
  if code < 0xD800 ∨ (0xDFFF < code ∧ code < 0x110000) then some (Char.ofNat code) else none

/-- The characters that stand behind a backslash for another one. -/
def escapes : List (Char × Char) :=
  [('"', '"'), ('\\', '\\'), ('b', '\x08'), ('t', '\t'), ('n', '\n'), ('f', '\x0c'), ('r', '\r'),
   ('e', '\x1b')]

/-- The character whose code point is written with `count` digits at the front
of the text, and the text behind it. -/
def readCode (count : Nat) (cs : List Char) : Option (Char × List Char) := do
  if cs.length < count then none
  return (← charOf? (← hexNumber? (cs.take count)), cs.drop count)

/-- The character of an escape behind its backslash, and the text behind it. -/
def readEscape : List Char → Option (Char × List Char)
  | 'x' :: cs => readCode 2 cs
  | 'u' :: cs => readCode 4 cs
  | 'U' :: cs => readCode 8 cs
  | c :: cs => (escapes.lookup c).map fun c => (c, cs)
  | [] => none

/-- The characters up to the closing double quote.  Every step takes a
character, so there are fewer steps than characters. -/
def readBasic : Nat → List Char → Option (List Char × List Char)
  | 0, _ => none
  | _, [] => none
  | _, '"' :: rest => some ([], rest)
  | steps + 1, '\\' :: rest => do
    let (c, rest) ← readEscape rest
    let (text, rest) ← readBasic steps rest
    return (c :: text, rest)
  | steps + 1, c :: rest =>
    if isControl c then none
    else do
      let (text, rest) ← readBasic steps rest
      return (c :: text, rest)

/-- The characters up to the closing single quote, as they stand. -/
def readLiteral (cs : List Char) : Option (List Char × List Char) :=
  let text := cs.takeWhile (· != '\x27')
  match cs.dropWhile (· != '\x27') with
  | [] => none
  | _ :: rest => if text.any isControl then none else some (text, rest)

/-! ## Three quotes -/

/-- The text behind three quotes, and behind up to two more that belong to the
text before them. -/
def closeBlock? (quote : Char) (cs : List Char) : Option (List Char) :=
  let quotes := (cs.takeWhile (· == quote)).length
  if quotes < 3 then none else some (cs.drop (min quotes 5))

/-- The text behind a break in a line that a backslash announces: blanks, the
break, and all blanks and breaks after it. -/
def skipJoint (cs : List Char) : Option (List Char) :=
  match skipSpace cs with
  | '\n' :: rest => some (skipBlank rest)
  | '\r' :: '\n' :: rest => some (skipBlank rest)
  | _ => none
where
  /-- The text without blanks and breaks at the front. -/
  skipBlank : List Char → List Char
    | [] => []
    | '\r' :: '\n' :: rest => skipBlank rest
    | c :: rest => if isSpace c || c == '\n' then skipBlank rest else c :: rest

/-- The text behind text between three double quotes.  Every step takes a
character, so there are fewer steps than characters. -/
def skipBasicBlock : Nat → List Char → Option (List Char)
  | 0, _ => none
  | steps + 1, cs =>
    match closeBlock? '"' cs with
    | some rest => some rest
    | none =>
      match cs with
      | [] => none
      | '\r' :: '\n' :: rest => skipBasicBlock steps rest
      | '\n' :: rest => skipBasicBlock steps rest
      | '\\' :: rest =>
        match skipJoint rest with
        | some rest => skipBasicBlock steps rest
        | none => (readEscape rest).bind fun (_, rest) => skipBasicBlock steps rest
      | c :: rest => if isControl c then none else skipBasicBlock steps rest

/-- The text behind text between three single quotes. -/
def skipLiteralBlock (cs : List Char) : Option (List Char) :=
  match closeBlock? '\x27' cs with
  | some rest => some rest
  | none =>
    match cs with
    | [] => none
    | '\r' :: '\n' :: rest => skipLiteralBlock rest
    | '\n' :: rest => skipLiteralBlock rest
    | c :: rest => if isControl c then none else skipLiteralBlock rest

end ContentPreview.Toml
