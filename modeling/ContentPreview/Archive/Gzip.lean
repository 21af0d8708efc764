import ContentPreview.Archive.Coding
import ContentPreview.Archive.Inflow

/-!
# Gzip

A gzip member as a source of bytes: a header with optional parts, deflate
data, and a trailer with a check and the length of the output.  What follows
the first member is not looked at.

The trailer is only reached when the output is read to its end, so a reader
that stops before never learns of a wrong one.

## Main definitions

* `Inflate.run` — the output of the data that begin at a position, and how
  they end.
* `Gzip.source` — the source that a compressed stream is.
-/

namespace ContentPreview.Archive.Inflate

/-! ## Deflate data

Decompression of the deflate format: blocks that are stored, or coded with
fixed or transmitted canonical prefix codes, with back references into the
last 32 KiB of output.  The window counts as filled with zeros before the data
begin.

Bits are taken lowest first, and a position is a number of bits.  Output is
recorded together with the number of input bytes after which it was known, so
that a reader of a slow or broken source can be given exactly what it could
have had.
-/

/-- The longest code word. -/
def longestWord : Nat := 15

/-- A number of bits, the lowest first. -/
def bits (data : ByteArray) (count : Nat) : BitReader Nat := lowBits data count

/-- The next symbol of a code. -/
def symbol (data : ByteArray) (code : PrefixCode) : BitReader Nat :=
  code.next (lowBit data)

/-- Whether words of the given lengths fill the code space. -/
def fillsSpace (lengths : List Nat) : Bool :=
  lengths.foldr (fun n covered => 1 <<< (longestWord - n) + covered) 0 == 1 <<< longestWord

/-- The code with the given word lengths, which has to fill the code space.
There may also be no word, or one of a single bit, if `mayBePartial`; a single
bit then tells whether a word follows. -/
def codeOf? (mayBePartial : Bool) (lengths : List Nat) : Option PrefixCode :=
  let used := lengths.filter (· ≠ 0)
  if fillsSpace used then some (.ofLengths longestWord lengths)
  else if mayBePartial && (used == [] || used == [1]) then some (.ofLengths 1 lengths)
  else none

/-- The code of literals and lengths in blocks with fixed codes. -/
def fixedLiterals : PrefixCode :=
  .ofLengths longestWord (.replicate 144 8 ++ .replicate 112 9 ++ .replicate 24 7 ++ .replicate 8 8)

/-- The code of distances in blocks with fixed codes. -/
def fixedDistances : PrefixCode := .ofLengths longestWord (.replicate 32 5)

/-- The order in which the lengths of the code of lengths are sent. -/
def lengthOrder : List Nat := [16, 17, 18, 0, 8, 7, 9, 6, 10, 5, 11, 4, 12, 3, 13, 2, 14, 1, 15]

/-- `count` numbers of three bits each. -/
def triples (data : ByteArray) : Nat → BitReader (List Nat)
  | 0 => return []
  | count + 1 => do
    let n ← bits data 3
    return n :: (← triples data count)

/-- Word lengths in run-length form until there are `total` of them, newest
first; a run may not go beyond. -/
def wordLengths (data : ByteArray) (code : PrefixCode) (total : Nat) :
    Nat → List Nat → BitReader (List Nat)
  | 0, _ => malformed
  | steps + 1, known => do
    if known.length = total then return known.reverse
    if total < known.length then malformed
    let s ← symbol data code
    if s < 16 then wordLengths data code total steps (s :: known)
    else if s = 16 then
      match known with
      | [] => malformed
      | last :: _ =>
        let n ← bits data 2
        wordLengths data code total steps (.replicate (n + 3) last ++ known)
    else if s = 17 then
      let n ← bits data 3
      wordLengths data code total steps (.replicate (n + 3) 0 ++ known)
    else
      let n ← bits data 7
      wordLengths data code total steps (.replicate (n + 11) 0 ++ known)

/-- The two codes that a block sends ahead of its data. -/
def sentCodes (data : ByteArray) : BitReader (PrefixCode × PrefixCode) := do
  let literals := (← bits data 5) + 257
  let distances := (← bits data 5) + 1
  let lengths := (← bits data 4) + 4
  if 286 < literals ∨ 30 < distances then malformed
  let sent ← triples data lengths
  let sent := (List.range 19).map fun s => ((lengthOrder.zip sent).lookup s).getD 0
  match codeOf? false sent with
  | none => malformed
  | some code =>
    let total := literals + distances
    let known ← wordLengths data code total (total + 1) []
    match codeOf? true (known.take literals), codeOf? true (known.drop literals) with
    | some literals, some distances => return (literals, distances)
    | _, _ => malformed

/-! ## Output -/

/-- A moment in the history of the output. -/
structure Mark where
  /-- The number of input bytes read by then. -/
  need : Nat
  /-- The number of input bytes read before there has to be room for the
  output. -/
  held : Nat
  /-- The amount of output known by then. -/
  size : Nat

/-- Output with its history. -/
structure Output where
  bytes : ByteArray := .empty
  marks : Array Mark := #[]

namespace Output

/-- Notes that the output so far is known after `need` bytes, of which `held`
are read whether or not there is room for it. -/
def mark (out : Output) (need held : Nat) : Output :=
  { out with marks := out.marks.push ⟨need, held, out.bytes.size⟩ }

/-- Notes that the output so far is known after `pos` bits, all of which are
read before there has to be room for it. -/
def markBits (out : Output) (pos : Nat) : Output := out.mark (bytesFor pos) (bytesFor pos)

/-- One byte more. -/
def push (out : Output) (b : UInt8) : Output := { out with bytes := out.bytes.push b }

/-- Repeats `count` bytes from `distance` back. -/
def copy (out : Output) (distance : Nat) : Nat → Output
  | 0 => out
  | count + 1 =>
    let size := out.bytes.size
    let b := if distance ≤ size then out.bytes[size - distance]?.getD 0 else 0
    (out.push b).copy distance count

end Output

/-! ## Blocks -/

/-- The length that a symbol stands for: its least value and the number of
extra bits. -/
def lengthOf? (s : Nat) : Option (Nat × Nat) :=
  if s < 257 ∨ 285 < s then none
  else if s = 285 then some (258, 0)
  else if s < 265 then some (s - 254, 0)
  else
    let extra := (s - 261) / 4
    some ((4 + (s - 261) % 4) * (1 <<< extra) + 3, extra)

/-- The distance that a symbol stands for: its least value and the number of
extra bits. -/
def distanceOf? (s : Nat) : Option (Nat × Nat) :=
  if 29 < s then none
  else if s < 4 then some (s + 1, 0)
  else
    let extra := s / 2 - 1
    some ((2 + s % 2) * (1 <<< extra) + 1, extra)

/-- The length and the distance of a back reference whose length symbol was
read. -/
def reference (data : ByteArray) (distances : PrefixCode) (s : Nat) : BitReader (Nat × Nat) := do
  match lengthOf? s with
  | none => malformed
  | some (least, extra) =>
    let length := least + (← bits data extra)
    match distanceOf? (← symbol data distances) with
    | none => malformed
    | some (nearest, extra) => return (length, nearest + (← bits data extra))

/-- The data of a coded block.  Every symbol takes at least one bit, so there
are fewer steps than bits. -/
def coded (data : ByteArray) (literals distances : PrefixCode) :
    Nat → Nat → Output → Output × Except Stop Nat
  | 0, _, out => (out, .error .starved)
  | steps + 1, pos, out =>
    match (symbol data literals).run pos with
    | .error stop => (out, .error stop)
    | .ok (s, pos) =>
      if s < 256 then
        coded data literals distances steps pos ((out.push (UInt8.ofNat s)).markBits pos)
      else if s = 256 then (out, .ok pos)
      else
        match (reference data distances s).run pos with
        | .error stop => (out, .error stop)
        | .ok ((length, distance), pos) =>
          coded data literals distances steps pos ((out.copy distance length).markBits pos)

/-- `count` bytes as they stand in the data.  A byte is only read when there is
room for it. -/
def verbatim (data : ByteArray) : Nat → Nat → Output → Output × Except Stop Nat
  | 0, pos, out => (out, .ok pos)
  | count + 1, pos, out =>
    match data[pos / 8]? with
    | none => (out, .error .starved)
    | some b => verbatim data count (pos + 8) ((out.push b).mark (pos / 8 + 1) (pos / 8))

/-- The length of a stored block, which is sent twice, the second time
complemented, after the next byte boundary. -/
def storedLength (data : ByteArray) : BitReader Nat := do
  modify fun pos => 8 * bytesFor pos
  let length ← bits data 16
  let check ← bits data 16
  if length + check ≠ 65535 then malformed
  return length

/-- What a block begins with: whether it is the last one, and how it is
coded. -/
inductive BlockStart where
  | verbatim (isLast : Bool) (length : Nat)
  | coded (isLast : Bool) (literals distances : PrefixCode)

/-- The beginning of a block. -/
def blockStart (data : ByteArray) : BitReader BlockStart := do
  let isLast := (← bits data 1) == 1
  match ← bits data 2 with
  | 0 => return .verbatim isLast (← storedLength data)
  | 1 => return .coded isLast fixedLiterals fixedDistances
  | 2 =>
    let (literals, distances) ← sentCodes data
    return .coded isLast literals distances
  | _ => malformed

/-- The blocks from a position on.  Every block takes bits, so there are fewer
blocks than bits. -/
def blocks (data : ByteArray) : Nat → Nat → Output → Output × Except Stop Nat
  | 0, _, out => (out, .error .starved)
  | steps + 1, pos, out =>
    match (blockStart data).run pos with
    | .error stop => (out, .error stop)
    | .ok (.verbatim isLast length, pos) =>
      proceed steps isLast (verbatim data length pos out)
    | .ok (.coded isLast literals distances, pos) =>
      proceed steps isLast (coded data literals distances (8 * data.size - pos + 1) pos out)
where
  /-- Goes on with the next block unless this was the last one. -/
  proceed (steps : Nat) (isLast : Bool) : Output × Except Stop Nat → Output × Except Stop Nat
    | (out, .error stop) => (out, .error stop)
    | (out, .ok pos) => if isLast then (out, .ok pos) else blocks data steps pos out

/-- The output of the data that begin at a byte, and the number of bytes up to
their end or the reason why they do not end well. -/
def run (data : ByteArray) (start : Nat) : Output × Except Stop Nat :=
  let (out, ending) := blocks data (8 * data.size + 1) (8 * start) {}
  (out, ending.map bytesFor)

end ContentPreview.Archive.Inflate

namespace ContentPreview.Archive.Gzip

/-! ## Members -/

/-- How many bytes are fetched at a time. -/
def fetchSize : Nat := 32768

/-- The size of the window. -/
def windowSize : Nat := 32768

/-- The greatest length of a text in the header. -/
def maxText : Nat := 65535

/-- The offset behind the zero byte that ends a text. -/
def textEnd (data : ByteArray) (offset : Nat) : Except Stop Nat :=
  match (data.extract offset data.size).toList.idxOf? 0 with
  | some n => if maxText < n then .error (.fault (offset + n)) else .ok (offset + n + 1)
  | none => .error .starved

/-- A little-endian number of a header. -/
def number (data : ByteArray) (offset length : Nat) : Except Stop Nat :=
  match little data offset length with
  | some n => .ok n
  | none => .error .starved

/-- The length of the header at the front: ten bytes, then the optional parts
that its flags announce, the last of them a check of the header itself. -/
def headerLength (data : ByteArray) : Except Stop Nat := do
  let magic ← number data 0 3
  let flags ← number data 3 1
  let _ ← number data 0 10
  if magic ≠ 0x088B1F ∨ 0x20 ≤ flags then throw (.fault 10)
  let offset ← if flags.testBit 2 then (do return 12 + (← number data 10 2)) else pure 10
  if data.size < offset then throw .starved
  let offset ← if flags.testBit 3 then textEnd data offset else pure offset
  let offset ← if flags.testBit 4 then textEnd data offset else pure offset
  if flags.testBit 1 then
    let check ← number data offset 2
    if check ≠ (crc32 (data.extract 0 offset).toList).toNat % 65536 then
      throw (.fault (offset + 2))
    return offset + 2
  else return offset

/-- The steps of a stop. -/
def stopSteps : Stop → List Step
  | .fault need => [.fault need]
  | .starved => []

/-- The pieces of output between marks. -/
def outputSteps (bytes : ByteArray) : Nat → List Inflate.Mark → List Step
  | _, [] => []
  | start, ⟨need, held, stop⟩ :: rest =>
    .output need held (bytes.extract start stop).toList :: outputSteps bytes stop rest

/-- Whether the trailer at an offset agrees with the output. -/
def trailerOk (data : ByteArray) (offset : Nat) (bytes : ByteArray) : Bool :=
  little data offset 4 == some (crc32 bytes.toList).toNat
    && little data (offset + 4) 4 == some (bytes.size % UInt32.size)

/-- What decompression of the first member does. -/
def steps (data : ByteArray) : List Step :=
  match headerLength data with
  | .error stop => stopSteps stop
  | .ok start =>
    let (out, ending) := Inflate.run data start
    .output start start [] :: outputSteps out.bytes 0 out.marks.toList
      ++ match ending with
        | .error stop => stopSteps stop
        | .ok stop => [.finish stop (stop + 8) (trailerOk data stop out.bytes)]

/-- The source that a compressed stream is. -/
def source (s : Stream) : Inflow :=
  let data : ByteArray := ⟨s.bytes.toArray⟩
  .packed {
    window := windowSize
    steps := steps data
    fetches := fetchTotals fetchSize s.pieces
    total := data.size
    broken := s.failure.isSome }

end ContentPreview.Archive.Gzip
