import ContentPreview.Text.Numeral

/-!
# Bytes as text

Three ways in which bytes and text stand for each other: UTF-8, the character
set of older archives, and the percent encoding of URLs.

## Main definitions

* `Utf8.scan` — the characters and ill-formed parts of a byte sequence, in
  order.
* `Utf8.decodeLossy`, `Utf8.decodeStrict` — the two readings.
* `Utf8.encode` — the bytes of a text.
* `CodePage437.decode` — the text of a byte sequence in which every byte is one
  character.
* `Percent.encode`, `Percent.decode` — the encoded form of a text, and the
  bytes that an encoded text stands for.
-/

namespace ContentPreview.Text.Utf8

/-! ## UTF-8

A scan that divides any sequence of bytes into the characters it encodes and
the ill-formed parts between them.

An ill-formed part is as long as possible while still a beginning of some
well-formed sequence, and at least one byte; this is the "maximal subpart"
rule of the Unicode standard.  The lossy reading shows each such part as one
replacement character, the strict reading refuses the text.

What may follow a leading byte depends on that byte alone, and only for the
second byte: overlong forms, surrogates and values above `U+10FFFF` are
excluded there (`secondOk`), so every later byte is an arbitrary continuation
byte.
-/

/-- How many bytes a sequence has that begins with this byte, and `0` for a
byte that begins none. -/
def width (a : UInt8) : Nat :=
  if a < 0x80 then 1
  else if a < 0xC2 then 0
  else if a < 0xE0 then 2
  else if a < 0xF0 then 3
  else if a < 0xF5 then 4
  else 0

/-- Bytes of the form `10xxxxxx`. -/
def isContinuation (b : UInt8) : Bool := 0x80 ≤ b && b ≤ 0xBF

/-- Whether `b` may follow the leading byte `a` of a sequence of two or more
bytes. -/
def secondOk (a b : UInt8) : Bool :=
  if a == 0xE0 then 0xA0 ≤ b && b ≤ 0xBF
  else if a == 0xED then 0x80 ≤ b && b ≤ 0x9F
  else if a == 0xF0 then 0x90 ≤ b && b ≤ 0xBF
  else if a == 0xF4 then 0x80 ≤ b && b ≤ 0x8F
  else isContinuation b

/-- The six payload bits of a continuation byte. -/
def payload (b : UInt8) : Nat := b.toNat % 64

/-- The character of a sequence of two bytes. -/
def char2 (a b : UInt8) : Char := Char.ofNat (a.toNat % 32 * 64 + payload b)

/-- The character of a sequence of three bytes. -/
def char3 (a b c : UInt8) : Char :=
  Char.ofNat (a.toNat % 16 * 4096 + payload b * 64 + payload c)

/-- The character of a sequence of four bytes. -/
def char4 (a b c d : UInt8) : Char :=
  Char.ofNat (a.toNat % 8 * 262144 + payload b * 4096 + payload c * 64 + payload d)

/-- The characters that a byte sequence encodes, with `none` for each
ill-formed part. -/
def scan : List UInt8 → List (Option Char)
  | [] => []
  | a :: s =>
    match width a with
    | 1 => some (Char.ofNat a.toNat) :: scan s
    | 2 =>
      match s with
      | [] => [none]
      | b :: t => if secondOk a b then some (char2 a b) :: scan t else none :: scan (b :: t)
    | 3 =>
      match s with
      | [] => [none]
      | [b] => if secondOk a b then [none] else none :: scan [b]
      | b :: c :: u =>
        if secondOk a b then
          if isContinuation c then some (char3 a b c) :: scan u else none :: scan (c :: u)
        else none :: scan (b :: c :: u)
    | 4 =>
      match s with
      | [] => [none]
      | [b] => if secondOk a b then [none] else none :: scan [b]
      | [b, c] =>
        if secondOk a b then
          if isContinuation c then [none] else none :: scan [c]
        else none :: scan [b, c]
      | b :: c :: d :: v =>
        if secondOk a b then
          if isContinuation c then
            if isContinuation d then some (char4 a b c d) :: scan v
            else none :: scan (d :: v)
          else none :: scan (c :: d :: v)
        else none :: scan (b :: c :: d :: v)
    | _ => none :: scan s

/-- The character shown for an ill-formed part. -/
def replacement : Char := '\uFFFD'

/-- The text of a byte sequence, with one replacement character for each
ill-formed part. -/
def decodeLossy (bytes : List UInt8) : String :=
  String.ofList ((scan bytes).map (·.getD replacement))

/-- The text of a byte sequence that has no ill-formed part. -/
def decodeStrict (bytes : List UInt8) : Option String :=
  let parts := scan bytes
  if parts.all Option.isSome then some (String.ofList (parts.filterMap id)) else none

/-- The bytes of a text. -/
def encode (s : String) : List UInt8 := s.toList.flatMap String.utf8EncodeChar

end ContentPreview.Text.Utf8

namespace ContentPreview.Text.CodePage437

/-! ## Code page 437

The character set of the first personal computers, in which older archives
write their names.  The lower half is ASCII; the upper half holds accented
letters, box drawing and mathematical signs.
-/

/-- The code points of the bytes from `0x80` on. -/
def upperHalf : Array Nat :=
  #[0x00C7, 0x00FC, 0x00E9, 0x00E2, 0x00E4, 0x00E0, 0x00E5, 0x00E7, 0x00EA, 0x00EB,
   0x00E8, 0x00EF, 0x00EE, 0x00EC, 0x00C4, 0x00C5, 0x00C9, 0x00E6, 0x00C6, 0x00F4,
   0x00F6, 0x00F2, 0x00FB, 0x00F9, 0x00FF, 0x00D6, 0x00DC, 0x00A2, 0x00A3, 0x00A5,
   0x20A7, 0x0192, 0x00E1, 0x00ED, 0x00F3, 0x00FA, 0x00F1, 0x00D1, 0x00AA, 0x00BA,
   0x00BF, 0x2310, 0x00AC, 0x00BD, 0x00BC, 0x00A1, 0x00AB, 0x00BB, 0x2591, 0x2592,
   0x2593, 0x2502, 0x2524, 0x2561, 0x2562, 0x2556, 0x2555, 0x2563, 0x2551, 0x2557,
   0x255D, 0x255C, 0x255B, 0x2510, 0x2514, 0x2534, 0x252C, 0x251C, 0x2500, 0x253C,
   0x255E, 0x255F, 0x255A, 0x2554, 0x2569, 0x2566, 0x2560, 0x2550, 0x256C, 0x2567,
   0x2568, 0x2564, 0x2565, 0x2559, 0x2558, 0x2552, 0x2553, 0x256B, 0x256A, 0x2518,
   0x250C, 0x2588, 0x2584, 0x258C, 0x2590, 0x2580, 0x03B1, 0x00DF, 0x0393, 0x03C0,
   0x03A3, 0x03C3, 0x00B5, 0x03C4, 0x03A6, 0x0398, 0x03A9, 0x03B4, 0x221E, 0x03C6,
   0x03B5, 0x2229, 0x2261, 0x00B1, 0x2265, 0x2264, 0x2320, 0x2321, 0x00F7, 0x2248,
   0x00B0, 0x2219, 0x00B7, 0x221A, 0x207F, 0x00B2, 0x25A0, 0x00A0]

/-- The character of a byte. -/
def char (b : UInt8) : Char :=
  if b < 0x80 then Char.ofNat b.toNat
  else Char.ofNat (upperHalf[b.toNat - 128]?.getD 0)

/-- The text of a byte sequence. -/
def decode (bytes : List UInt8) : String := String.ofList (bytes.map char)

end ContentPreview.Text.CodePage437

namespace ContentPreview.Text.Percent

/-! ## Percent encoding

Text as it may stand in the path of a URL.  Letters and digits of ASCII, the
four marks `-`, `.`, `_`, `~` and the separator `/` stand for themselves;
every other byte of the UTF-8 form is written as `%` and two capital
hexadecimal digits.
-/

/-- The bytes that stand for themselves. -/
def isPlain (b : UInt8) : Bool :=
  let c := Char.ofNat b.toNat
  b < 0x80 && (c.isAlphanum || c == '-' || c == '.' || c == '_' || c == '~' || c == '/')

/-- The encoded form of one byte. -/
def encodeByte (b : UInt8) : List Char :=
  if isPlain b then [Char.ofNat b.toNat]
  else ['%', capitalHexDigit (b.toNat / 16), capitalHexDigit (b.toNat % 16)]

/-- The encoded form of a text. -/
def encode (text : String) : List Char := (Utf8.encode text).flatMap encodeByte

/-- The bytes of an encoded text.  A percent sign without two digits behind it
stands for itself. -/
def decode : List Char → List UInt8
  | [] => []
  | '%' :: a :: b :: rest =>
    match hexValue? a, hexValue? b with
    | some high, some low => UInt8.ofNat (16 * high + low) :: decode rest
    | _, _ => UInt8.ofNat '%'.toNat :: decode (a :: b :: rest)
  | c :: rest => String.utf8EncodeChar c ++ decode rest

end ContentPreview.Text.Percent
