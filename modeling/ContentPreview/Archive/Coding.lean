/-!
# Fields, checks and codes of archives

What the archive formats have in common: numbers at given offsets, cyclic
redundancy checks, and prefix codes in a sequence of bits.

## Main definitions

* `little`, `slice`, `occursAt` — numbers, bytes and signatures at offsets.
* `crc32`, `crc32Forward` — the checks of gzip and ZIP, and of bzip2.
* `BitReader` — computations that move a bit position and may stop early.
* `lowBits`, `highBits` — numbers in either bit order.
* `PrefixCode`, `PrefixCode.next` — a canonical code and its next symbol.
-/

namespace ContentPreview.Archive

/-! ## Fields of a byte array

Numbers and slices at given offsets of an archive.  A field that does not lie
inside the array as a whole is not there at all.
-/

/-- The number whose bytes are given lowest first. -/
def ofLittle (bytes : List UInt8) : Nat := bytes.foldr (fun b n => b.toNat + 256 * n) 0

/-- The number whose bytes are given highest first. -/
def ofBig (bytes : List UInt8) : Nat := bytes.foldl (fun n b => 256 * n + b.toNat) 0

/-- The `length` bytes from `offset` on, if the array has them. -/
def slice (data : ByteArray) (offset length : Nat) : Option (List UInt8) :=
  if offset + length ≤ data.size then some (data.extract offset (offset + length)).toList else none

/-- The little-endian number of `length` bytes at `offset`. -/
def little (data : ByteArray) (offset length : Nat) : Option Nat :=
  (slice data offset length).map ofLittle

/-- Whether a signature stands at an offset. -/
def occursAt (data : ByteArray) (signature : List UInt8) (offset : Nat) : Bool :=
  slice data offset signature.length == some signature

/-! ## Cyclic redundancy checks

The 32-bit check `x³² + x²⁶ + x²³ + … + 1` in its two bit orders.  Gzip and ZIP
feed the bits of a byte lowest first, bzip2 feeds them highest first; both
start from all ones and complement the remainder.
-/

/-- One bit of the low-first check. -/
def crcBit (r : UInt32) : UInt32 := if r &&& 1 == 1 then (r >>> 1) ^^^ 0xEDB88320 else r >>> 1

/-- The low-first remainders of the 256 bytes. -/
def crcTable : Array UInt32 :=
  Array.ofFn (n := 256) fun i => (List.range 8).foldl (fun r _ => crcBit r) (UInt32.ofNat i)

/-- One byte of the low-first check. -/
def crcByte (r : UInt32) (b : UInt8) : UInt32 :=
  (r >>> 8) ^^^ crcTable[(r ^^^ b.toUInt32).toNat % 256]?.getD 0

/-- The check of gzip and ZIP. -/
def crc32 (bytes : List UInt8) : UInt32 := bytes.foldl crcByte 0xFFFFFFFF ^^^ 0xFFFFFFFF

/-- One bit of the high-first check. -/
def crcForwardBit (r : UInt32) : UInt32 :=
  if r >>> 31 == 1 then (r <<< 1) ^^^ 0x04C11DB7 else r <<< 1

/-- The high-first remainders of the 256 bytes. -/
def crcForwardTable : Array UInt32 :=
  Array.ofFn (n := 256) fun i =>
    (List.range 8).foldl (fun r _ => crcForwardBit r) (UInt32.ofNat i <<< 24)

/-- One byte of the high-first check. -/
def crcForwardByte (r : UInt32) (b : UInt8) : UInt32 :=
  (r <<< 8) ^^^ crcForwardTable[((r >>> 24) ^^^ b.toUInt32).toNat % 256]?.getD 0

/-- The check of bzip2. -/
def crc32Forward (bytes : List UInt8) : UInt32 :=
  bytes.foldl crcForwardByte 0xFFFFFFFF ^^^ 0xFFFFFFFF

/-! ## Bits and prefix codes

Reading of single bits, numbers and code words from a byte array.  A position
is a number of bits; the bits of a byte come lowest first in one format and
highest first in another.

Codes are canonical: words of one length are consecutive numbers, given out
in the order of the symbols, and shorter words come before longer ones.
-/

/-- Why decompression stops early. -/
inductive Stop where
  /-- The data are malformed, as the first `need` bytes show. -/
  | fault (need : Nat)
  /-- The data are cut short. -/
  | starved

/-- Reading from a bit position on. -/
abbrev BitReader := StateT Nat (Except Stop)

/-- The number of bytes that hold the first `bits` bits. -/
def bytesFor (bits : Nat) : Nat := (bits + 7) / 8

/-- The data are malformed, as is known by now. -/
def malformed {α : Type} : BitReader α := do throw (.fault (bytesFor (← get)))

/-- The byte that holds the next bit, and the place of the bit in it. -/
def currentByte (data : ByteArray) : BitReader (Nat × Nat) := do
  let pos ← get
  match data[pos / 8]? with
  | some b =>
    set (pos + 1)
    return (b.toNat, pos % 8)
  | none => throw .starved

/-- The next bit, the lowest of a byte first. -/
def lowBit (data : ByteArray) : BitReader Nat := do
  let (b, place) ← currentByte data
  return b >>> place % 2

/-- A number of `count` bits, the lowest first. -/
def lowBits (data : ByteArray) : Nat → BitReader Nat
  | 0 => return 0
  | count + 1 => do
    let low ← lowBit data
    let high ← lowBits data count
    return low + 2 * high

/-- The next bit, the highest of a byte first. -/
def highBit (data : ByteArray) : BitReader Nat := do
  let (b, place) ← currentByte data
  return b >>> (7 - place) % 2

/-- A number of `count` bits, the highest first, behind the bits read
before. -/
def highBits (data : ByteArray) (before : Nat) : Nat → BitReader Nat
  | 0 => return before
  | count + 1 => do highBits data (2 * before + (← highBit data)) count

/-- A canonical prefix code: how many words there are of each length from zero
up to the longest one that is tried, and the symbols in the order of their
words. -/
structure PrefixCode where
  counts : Array Nat
  symbols : Array Nat

namespace PrefixCode

/-- The code with the given word lengths, of which zero means no word.  At most
`longest` bits are read for a symbol. -/
def ofLengths (longest : Nat) (lengths : List Nat) : PrefixCode where
  counts := Array.ofFn (n := longest + 1) fun n => lengths.count n.val
  symbols :=
    (List.range longest).flatMap (fun n =>
      lengths.zipIdx.filterMap fun (length, symbol) =>
        if length = n + 1 then some symbol else none) |>.toArray

/-- The next symbol, tried for each word length in turn: `word` are the bits
so far, `first` the first word of this length, `shorter` the number of shorter
words. -/
def next (code : PrefixCode) (nextBit : BitReader Nat) : BitReader Nat :=
  go (code.counts.size - 1) 0 0 0
where
  /-- Tries the word lengths that are left. -/
  go : Nat → Nat → Nat → Nat → BitReader Nat
    | 0, _, _, _ => malformed
    | left + 1, word, first, shorter => do
      let word := 2 * word + (← nextBit)
      let first := 2 * first
      let count := code.counts[code.counts.size - 1 - left]?.getD 0
      if word < first + count then
        if shorter + word < first then malformed
        else
          match code.symbols[shorter + word - first]? with
          | some symbol => return symbol
          | none => malformed
      else go left word (first + count) (shorter + count)

end PrefixCode

end ContentPreview.Archive
