import ContentPreview.Toml.Quoted
import ContentPreview.Toml.Scalar
import ContentPreview.Toml.Table

/-!
# Reading settings files

A reader for settings files in the TOML format: entries `key = value`, one in
a line, and headings of tables in brackets.  Values are numbers, booleans,
dates and times, quoted text, lists, and tables in braces; lists and tables
may run over several lines and end in a comma.

The functions on values call one another on what is left of the text, which
only gets shorter; a step bound of more than twice its length is therefore
never reached, and `read` supplies it.  Values may be nested, and keys dotted,
up to a fixed depth.

## Main definitions

* `read` — the entries of a file.
-/

namespace ContentPreview.Toml

/-- How deeply values may be nested, and the number of parts a key may
have. -/
def maxDepth : Nat := 80

/-! ## Keys -/

/-- Characters of a key without quotes. -/
def isBare (c : Char) : Bool := c.isAlphanum || c == '_' || c == '-'

/-- The next part of a key, and the text behind it. -/
def readPart : List Char → Option (String × List Char)
  | '"' :: rest =>
    (readBasic (rest.length + 1) rest).map fun (text, rest) => (String.ofList text, rest)
  | '\x27' :: rest => (readLiteral rest).map fun (text, rest) => (String.ofList text, rest)
  | cs =>
    let text := cs.takeWhile isBare
    if text = [] then none else some (String.ofList text, cs.dropWhile isBare)

/-- A key of at most `limit` parts around dots, as its path and its last part,
and the text behind it. -/
def readKey : Nat → List Char → Option (List String × String × List Char)
  | 0, _ => none
  | limit + 1, cs => do
    let (part, rest) ← readPart (skipSpace cs)
    match skipSpace rest with
    | '.' :: rest =>
      let (path, last, rest) ← readKey limit rest
      return (part :: path, last, rest)
    | rest => return ([], part, rest)

/-! ## Values -/

/-- Characters of a value without quotes. -/
def isPlain (c : Char) : Bool :=
  !(c ∈ ['=', ',', '[', ']', '\x7b', '\x7d', '#', ' ', '\t', '\n', '\r'])

/-- The value that is written without quotes. -/
def plainValue? (cs : List Char) : Option Node :=
  if cs = ['t', 'r', 'u', 'e'] then some (.boolean true)
  else if cs = ['f', 'a', 'l', 's', 'e'] then some (.boolean false)
  else
    match integer? cs with
    | some n => some (.integer n)
    | none => if isFractional cs || isMoment cs then some .other else none

/-- The value without quotes at the front of the text, and the text behind it.
A digit behind a single blank goes on with it, as in a date and a time. -/
def readPlain (cs : List Char) : Option (Node × List Char) :=
  let text := cs.takeWhile isPlain
  match cs.dropWhile isPlain with
  | ' ' :: c :: rest =>
    if c.isDigit then
      (plainValue? (text ++ ' ' :: (c :: rest).takeWhile isPlain)).map fun value =>
        (value, (c :: rest).dropWhile isPlain)
    else (plainValue? text).map fun value => (value, ' ' :: c :: rest)
  | rest => (plainValue? text).map fun value => (value, rest)

mutual

/-- The value at the front of the text, and the text behind it.  `depth` is the
number of brackets that may still be opened. -/
def readValue : Nat → Nat → List Char → Option (Node × List Char)
  | 0, _, _ => none
  | steps + 1, depth, cs =>
    match cs with
    | '"' :: '"' :: '"' :: rest =>
      (skipBasicBlock (rest.length + 1) rest).map fun rest => (.other, rest)
    | '"' :: rest => (readBasic (rest.length + 1) rest).map fun (_, rest) => (.other, rest)
    | '\x27' :: '\x27' :: '\x27' :: rest =>
      (skipLiteralBlock rest).map fun rest => (.other, rest)
    | '\x27' :: rest => (readLiteral rest).map fun (_, rest) => (.other, rest)
    | '[' :: rest =>
      match depth with
      | 0 => none
      | depth + 1 => (readItems steps depth rest).map fun rest => (.other, rest)
    | '\x7b' :: rest =>
      match depth with
      | 0 => none
      | depth + 1 => (readFields steps depth [] rest).map fun rest => (.other, rest)
    | cs => readPlain cs

/-- The text behind the bracket that closes a list. -/
def readItems : Nat → Nat → List Char → Option (List Char)
  | 0, _, _ => none
  | steps + 1, depth, cs =>
    match skipFiller false cs with
    | none => none
    | some (']' :: rest) => some rest
    | some cs =>
      match readValue steps depth cs with
      | none => none
      | some (_, rest) =>
        match skipFiller false rest with
        | some (',' :: rest) => readItems steps depth rest
        | some (']' :: rest) => some rest
        | _ => none

/-- The text behind the brace that closes a table with the given entries so
far. -/
def readFields : Nat → Nat → Entries → List Char → Option (List Char)
  | 0, _, _, _ => none
  | steps + 1, depth, entries, cs =>
    match skipFiller false cs with
    | none => none
    | some ('\x7d' :: rest) => some rest
    | some cs =>
      match readKey maxDepth cs with
      | none => none
      | some (path, key, rest) =>
        match skipFiller false rest with
        | some ('=' :: rest) =>
          match (skipFiller false rest).bind (readValue steps depth) with
          | none => none
          | some (value, rest) =>
            match entries.assign path key value, skipFiller false rest with
            | some entries, some (',' :: rest) => readFields steps depth entries rest
            | some _, some ('\x7d' :: rest) => some rest
            | _, _ => none
        | _ => none

end

/-! ## Files -/

/-- What a line says. -/
inductive Statement where
  | entry (path : List String) (key : String) (value : Node)
  /-- A heading, of one more table of a list if `repeats`. -/
  | heading (repeats : Bool) (path : List String) (key : String)

/-- The heading behind its opening brackets, and the text behind it. -/
def readHeading (repeats : Bool) (close cs : List Char) : Option (Statement × List Char) := do
  let (path, key, rest) ← readKey maxDepth cs
  if close.isPrefixOf rest then return (.heading repeats path key, rest.drop close.length)
  else none

/-- The statement at the front of the text, and the text behind it. -/
def readStatement : List Char → Option (Statement × List Char)
  | '[' :: '[' :: rest => readHeading true [']', ']'] rest
  | '[' :: rest => readHeading false [']'] rest
  | cs => do
    match ← readKey maxDepth cs with
    | (path, key, '=' :: rest) =>
      let (value, rest) ← readValue (2 * rest.length + 2) maxDepth (skipSpace rest)
      return (.entry path key value, rest)
    | _ => none

/-- The statements of a file.  Every statement takes a character, so there are
fewer steps than characters. -/
def readStatements : Nat → List Char → Option (List Statement)
  | 0, _ => none
  | steps + 1, cs => do
    match ← skipFiller false cs with
    | [] => return []
    | cs =>
      let (statement, rest) ← readStatement cs
      return statement :: (← readStatements steps (← endLine false rest))

/-- The entries after the given statements; `current` is the open table. -/
def build : List Statement → List String → Entries → Option Entries
  | [], _, entries => some entries
  | .entry path key value :: rest, current, entries => do
    build rest current
      (← entries.within false (fun _ inner => inner.assign path key value) current .heading)
  | .heading repeats path key :: rest, _, entries => do
    build rest (path ++ [key])
      (← if repeats then entries.openList path key else entries.openTable path key)

/-- The entries of a file. -/
def read (text : String) : Option Entries := do
  let cs := match text.toList with
    | '\uFEFF' :: cs => cs
    | cs => cs
  build (← readStatements (cs.length + 1) cs) [] []

end ContentPreview.Toml
