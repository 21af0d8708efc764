import ContentPreview.Text.Numeral

/-!
# Numbers, dates and times in a settings file

The values that are neither text nor put together from others.

## Main definitions

* `integer?` — the value of an integer.
* `isFractional` — whether the text is a number of the other kind.
* `isMoment` — whether the text is a moment.
-/

namespace ContentPreview.Toml

/-! ## Numbers

Integers are written in four bases, and have to fit a signed or an unsigned
word of 128 bits.  Numbers with a fraction or an exponent have to stay below
the point from which they round to infinity as a binary number of 64 bits.
Single underscores may stand between digits.
-/

/-- The digits of a number without the underscores between them; an underscore
stands between two digits. -/
def digitsOf (isDigit : Char → Bool) : List Char → Option (List Char)
  | [] => none
  | [c] => if isDigit c then some [c] else none
  | c :: '_' :: rest => if isDigit c then (digitsOf isDigit rest).map (c :: ·) else none
  | c :: rest => if isDigit c then (digitsOf isDigit rest).map (c :: ·) else none

/-! ## Integers -/

/-- The value of digits in a base. -/
def valueIn (base : Nat) (digits : List Char) : Nat :=
  digits.foldl (fun n c => base * n + (Text.hexValue? c).getD 0) 0

/-- A number in a base up to sixteen. -/
def basedInteger (base : Nat) (cs : List Char) : Option Nat :=
  (digitsOf (fun c => (Text.hexValue? c).any (· < base)) cs).map (valueIn base)

/-- Decimal digits without superfluous zeros in front. -/
def wholeDigits (cs : List Char) : Option (List Char) := do
  let digits ← digitsOf Char.isDigit cs
  if digits.head? = some '0' ∧ digits.length ≠ 1 then none
  return digits

/-- A decimal number. -/
def decimalInteger (cs : List Char) : Option Nat := (wholeDigits cs).map (valueIn 10)

/-- An integer of any size, which may have a sign if it is decimal. -/
def anyInteger? : List Char → Option Int
  | '0' :: 'x' :: cs => (basedInteger 16 cs).map Int.ofNat
  | '0' :: 'o' :: cs => (basedInteger 8 cs).map Int.ofNat
  | '0' :: 'b' :: cs => (basedInteger 2 cs).map Int.ofNat
  | '+' :: cs => (decimalInteger cs).map Int.ofNat
  | '-' :: cs => (decimalInteger cs).map fun n => -Int.ofNat n
  | cs => (decimalInteger cs).map Int.ofNat

/-- An integer that fits a signed or an unsigned word of 128 bits. -/
def integer? (cs : List Char) : Option Int := do
  let n ← anyInteger? cs
  if n < -Int.ofNat (1 <<< 127) ∨ Int.ofNat (1 <<< 128) ≤ n then none
  return n

/-! ## Fractions -/

/-- The text without a sign. -/
def withoutSign : List Char → List Char
  | '+' :: cs => cs
  | '-' :: cs => cs
  | cs => cs

/-- The least number that rounds to infinity.  It lies halfway between the
greatest binary number of 64 bits and the next one there would be. -/
def roundsToInfinity : Nat := (1 <<< 54 - 1) <<< 970

/-- The number of decimal digits of `roundsToInfinity`. -/
def greatestLength : Nat := 309

/-- Whether the number with these digits around the decimal point, times a
power of ten, rounds to infinity.  As the bound is a whole number, the digits
before the point decide. -/
def isTooGreat (whole fraction : List Char) (exponent : Int) : Bool :=
  let digits := (whole ++ fraction).dropWhile (· == '0')
  let before := Int.ofNat digits.length - Int.ofNat fraction.length + exponent
  let leading := (digits ++ List.replicate greatestLength '0').take greatestLength
  digits ≠ [] && ((greatestLength : Int) < before
    || ((greatestLength : Int) == before && roundsToInfinity ≤ valueIn 10 leading))

/-- The exponent behind its letter. -/
def exponent? : List Char → Option Int
  | '-' :: cs => (digitsOf Char.isDigit cs).map fun digits => -Int.ofNat (valueIn 10 digits)
  | cs => (digitsOf Char.isDigit (withoutSign cs)).map fun digits => Int.ofNat (valueIn 10 digits)

/-- Whether the text is a number with a fraction or an exponent, or one of the
special numbers. -/
def isFractional (cs : List Char) : Bool :=
  let cs := withoutSign cs
  let isMark (c : Char) : Bool := c == 'e' || c == 'E'
  let mantissa := cs.takeWhile fun c => !isMark c
  let power := cs.dropWhile fun c => !isMark c
  let whole := mantissa.takeWhile (· != '.')
  let fraction := mantissa.dropWhile (· != '.')
  let fraction? := if fraction = [] then some [] else digitsOf Char.isDigit (fraction.drop 1)
  let exponent? := if power = [] then some 0 else exponent? (power.drop 1)
  cs == ['i', 'n', 'f'] || cs == ['n', 'a', 'n']
    || ((fraction ≠ [] || power ≠ []) &&
      match wholeDigits whole, fraction?, exponent? with
      | some whole, some fraction, some exponent => !isTooGreat whole fraction exponent
      | _, _, _ => false)

/-! ## Dates and times

A moment is a date, a time of day, or both around a letter `T` or a blank,
and may then have an offset from universal time.  Seconds may be left out, and
may have a fraction.
-/

/-- The number of days of a month. -/
def daysIn (year month : Nat) : Nat :=
  if month = 2 then
    if year % 4 = 0 ∧ (year % 100 ≠ 0 ∨ year % 400 = 0) then 29 else 28
  else if month ∈ [4, 6, 9, 11] then 30
  else 31

/-- A number of `count` digits, and the text behind it. -/
def readFixed (count : Nat) (cs : List Char) : Option (Nat × List Char) :=
  let digits := cs.take count
  if digits.length = count ∧ digits.all Char.isDigit then
    some (Nat.ofDigitChars 10 digits 0, cs.drop count)
  else none

/-- The text behind a character. -/
def readMark (mark : Char) : List Char → Option (List Char)
  | [] => none
  | c :: cs => if c = mark then some cs else none

/-- The text behind a date. -/
def readDate (cs : List Char) : Option (List Char) := do
  let (year, cs) ← readFixed 4 cs
  let (month, cs) ← readFixed 2 (← readMark '-' cs)
  let (day, cs) ← readFixed 2 (← readMark '-' cs)
  if month < 1 ∨ 12 < month ∨ day < 1 ∨ daysIn year month < day then none
  return cs

/-- The text behind an hour and a minute. -/
def readMinute (cs : List Char) : Option (List Char) := do
  let (hour, cs) ← readFixed 2 cs
  let (minute, cs) ← readFixed 2 (← readMark ':' cs)
  if 23 < hour ∨ 59 < minute then none
  return cs

/-- The text behind an optional fraction of a second. -/
def readSecondFraction : List Char → Option (List Char)
  | '.' :: cs => if (cs.takeWhile Char.isDigit) = [] then none else some (cs.dropWhile Char.isDigit)
  | cs => some cs

/-- The text behind a time of day.  A minute may have a leap second. -/
def readTime (cs : List Char) : Option (List Char) := do
  match ← readMinute cs with
  | ':' :: cs =>
    let (second, cs) ← readFixed 2 cs
    if 60 < second then none
    readSecondFraction cs
  | cs => return cs

/-- The text behind an optional offset. -/
def readOffset : List Char → Option (List Char)
  | [] => some []
  | c :: cs =>
    if c = 'Z' ∨ c = 'z' then some cs
    else if c = '+' ∨ c = '-' then readMinute cs
    else none

/-- Whether the text is a moment. -/
def isMoment (cs : List Char) : Bool :=
  match readDate cs with
  | none => readTime cs == some []
  | some [] => true
  | some (c :: cs) => (c ∈ ['T', 't', ' ']) && (readTime cs).bind readOffset == some []

end ContentPreview.Toml
