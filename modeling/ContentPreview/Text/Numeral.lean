/-!
# Numbers as text

Reading and writing of unsigned numbers: numerals of a base up to ten, digits
of base sixteen, and numbers of bytes as people read them.

## Main definitions

* `readUnsigned`, `readUInt64` — the value of a numeral below a bound, and of
  one that fits a 64-bit word.
* `decimal` — the decimal digits of a number, without leading zeros.
* `hexValue?`, `smallHexDigit`, `capitalHexDigit` — hexadecimal digits.
* `binarySize` — the text of a number of bytes.
-/

namespace ContentPreview.Text

/-! ## Numerals

A numeral is an optional single plus sign followed by one or more digits of
the base; leading zeros are free, and the value has to lie below a bound.
Blanks, separators and a sign alone are refused.
-/

/-- The value of an ASCII decimal digit. -/
def digitValue (c : Char) : Nat := c.toNat - '0'.toNat

/-- Whether `c` is one of the first `base` decimal digits. -/
def isDigitBelow (base : Nat) (c : Char) : Bool := c.isDigit && digitValue c < base

/-- The numeral without its optional plus sign. -/
def unsigned : List Char → List Char
  | '+' :: rest => rest
  | cs => cs

/-- The value of a numeral in a base up to ten, if it lies below `bound`. -/
def readUnsigned (base bound : Nat) (cs : List Char) : Option Nat :=
  let digits := unsigned cs
  if digits ≠ [] ∧ digits.all (isDigitBelow base) then
    let value := Nat.ofDigitChars base digits 0
    if value < bound then some value else none
  else none

/-- The number of values of a 64-bit word. -/
def wordBound : Nat := UInt64.size

/-- A decimal numeral whose value fits a 64-bit word. -/
def readUInt64 (cs : List Char) : Option UInt64 :=
  (readUnsigned 10 wordBound cs).map UInt64.ofNat

/-- The decimal digits of a number. -/
def decimal (n : Nat) : String := String.ofList (Nat.toDigits 10 n)

/-! ## Hexadecimal digits

Digits are read in capitals and small letters; they are written in either, as
a format demands.
-/

/-- The value of a hexadecimal digit. -/
def hexValue? (c : Char) : Option Nat :=
  if '0' ≤ c ∧ c ≤ '9' then some (c.toNat - 48)
  else if 'a' ≤ c ∧ c ≤ 'f' then some (c.toNat - 87)
  else if 'A' ≤ c ∧ c ≤ 'F' then some (c.toNat - 55)
  else none

/-- The digit of a value below sixteen, in small letters. -/
def smallHexDigit (n : Nat) : Char := Char.ofNat (if n < 10 then 48 + n else 87 + n)

/-- The digit of a value below sixteen, in capitals. -/
def capitalHexDigit (n : Nat) : Char := Char.ofNat (if n < 10 then 48 + n else 55 + n)

/-! ## Sizes in binary units

A number of bytes as people read it: divided by 1024 until it is below that,
with two decimals unless it is whole, and the name of the unit.

The number is first rounded to 53 significant bits, the precision of a double;
from there on every step is exact.  A fraction below the resolution of a
double near one counts as whole, and half a hundredth goes to the even side.
-/

/-- The quotient of two numbers, rounded to the nearest whole number and at a
tie to the even one. -/
def roundDiv (n d : Nat) : Nat :=
  let q := n / d
  let r := n % d
  if d < 2 * r ∨ (2 * r = d ∧ q % 2 = 1) then q + 1 else q

/-- The nearest number with at most 53 significant bits. -/
def roundToDouble (n : Nat) : Nat :=
  if n < 1 <<< 53 then n
  else
    let unit := 1 <<< (n.log2 - 52)
    roundDiv n unit * unit

/-- The names of the units. -/
def binaryUnits : List String := ["B", "KiB", "MiB", "GiB", "TiB", "PiB", "EiB"]

/-- The number of whole divisions by 1024 that leave at least one, among the
given number of units. -/
def binaryScale (n : Nat) : Nat → Nat
  | 0 => 0
  | units + 1 => if n < 1024 then 0 else binaryScale (n / 1024) units + 1

/-- A number of hundredths with a decimal point. -/
def hundredths (n : Nat) : String :=
  decimal (n / 100) ++ "." ++ decimal (n / 10 % 10) ++ decimal (n % 10)

/-- The text of a number of bytes. -/
def binarySize (bytes : Nat) : String :=
  let n := roundToDouble bytes
  let scale := binaryScale n 6
  let unit := 1 <<< (10 * scale)
  let isWhole : Bool := (n % unit) <<< 52 ≤ unit
  let shown := if isWhole then decimal (roundDiv n unit) else hundredths (roundDiv (100 * n) unit)
  shown ++ " " ++ binaryUnits.getD scale ""

end ContentPreview.Text
