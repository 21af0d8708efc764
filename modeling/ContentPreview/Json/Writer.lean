import ContentPreview.Json.Value
import ContentPreview.Text.Numeral

/-!
# Writing JSON text

Two layouts of a JSON value: the compact one without blanks, and the indented
one with two blanks per level, in which an empty list or object stays on its
line.

Strings escape the quote, the backslash and the control characters below
`U+0020`, five of them by a letter and the others by four hexadecimal digits.
Everything else stands for itself.

## Main definitions

* `Value.compact`, `Value.indented` — the two layouts.
-/

namespace ContentPreview.Json

/-- The letter that escapes a control character after a backslash. -/
def shortEscape? (c : Char) : Option Char :=
  if c = '\x08' then some 'b'
  else if c = '\x0c' then some 'f'
  else if c = '\n' then some 'n'
  else if c = '\r' then some 'r'
  else if c = '\t' then some 't'
  else none

/-- A character as it is written inside a string. -/
def writeChar (c : Char) : List Char :=
  if c = '"' then ['\\', '"']
  else if c = '\\' then ['\\', '\\']
  else
    match shortEscape? c with
    | some letter => ['\\', letter]
    | none =>
      if c < ' ' then
        ['\\', 'u', '0', '0', Text.smallHexDigit (c.toNat / 16), Text.smallHexDigit (c.toNat % 16)]
      else [c]

/-- A text with its quotes. -/
def writeString (text : String) : List Char :=
  '"' :: (text.toList.flatMap writeChar ++ ['"'])

/-- The digits of an integer. -/
def writeInteger : Int → List Char
  | .ofNat n => Nat.toDigits 10 n
  | .negSucc n => '-' :: Nat.toDigits 10 (n + 1)

/-- The text of a value that is neither list nor object.  Tokens that stand
for no value are written as null. -/
def writeScalar : Value → List Char
  | .bool true => ['t', 'r', 'u', 'e']
  | .bool false => ['f', 'a', 'l', 's', 'e']
  | .integer n => writeInteger n
  | .string (some text) => writeString text
  | _ => ['n', 'u', 'l', 'l']

/-! ## The compact layout -/

mutual

/-- A value without blanks. -/
def writeCompact : Value → List Char
  | .list items => '[' :: writeItems items
  | .object fields => '\x7b' :: writeFields fields
  | v => writeScalar v

/-- The items of a list and the closing bracket. -/
def writeItems : List Value → List Char
  | [] => [']']
  | [item] => writeCompact item ++ [']']
  | item :: next :: rest => writeCompact item ++ ',' :: writeItems (next :: rest)

/-- The fields of an object and the closing brace. -/
def writeFields : List (Option String × Value) → List Char
  | [] => ['\x7d']
  | [(name, value)] => writeString (name.getD "") ++ ':' :: (writeCompact value ++ ['\x7d'])
  | (name, value) :: next :: rest =>
    writeString (name.getD "") ++ ':' :: (writeCompact value ++ ',' :: writeFields (next :: rest))

end

/-! ## The indented layout -/

/-- A line break and the blanks of a level. -/
def breakLine (level : Nat) : List Char := '\n' :: List.replicate (2 * level) ' '

mutual

/-- A value whose first line is already indented to `level`. -/
def writeIndented (level : Nat) : Value → List Char
  | .list [] => ['[', ']']
  | .list (item :: rest) => '[' :: indentItems level (item :: rest)
  | .object [] => ['\x7b', '\x7d']
  | .object (field :: rest) => '\x7b' :: indentFields level (field :: rest)
  | v => writeScalar v

/-- The items of a list, one a line, and the closing bracket. -/
def indentItems (level : Nat) : List Value → List Char
  | [] => breakLine level ++ [']']
  | [item] => breakLine (level + 1) ++ writeIndented (level + 1) item ++ (breakLine level ++ [']'])
  | item :: next :: rest =>
    breakLine (level + 1) ++ writeIndented (level + 1) item
      ++ ',' :: indentItems level (next :: rest)

/-- The fields of an object, one a line, and the closing brace. -/
def indentFields (level : Nat) : List (Option String × Value) → List Char
  | [] => breakLine level ++ ['\x7d']
  | [(name, value)] =>
    breakLine (level + 1) ++ writeString (name.getD "")
      ++ ':' :: ' ' :: (writeIndented (level + 1) value ++ (breakLine level ++ ['\x7d']))
  | (name, value) :: next :: rest =>
    breakLine (level + 1) ++ writeString (name.getD "")
      ++ ':' :: ' ' :: (writeIndented (level + 1) value ++ ',' :: indentFields level (next :: rest))

end

/-- The compact text of a value. -/
def Value.compact (v : Value) : String := String.ofList (writeCompact v)

/-- The indented text of a value. -/
def Value.indented (v : Value) : String := String.ofList (writeIndented 0 v)

end ContentPreview.Json
