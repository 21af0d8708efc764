import ContentPreview.Archive.Coding
import ContentPreview.Archive.Inflow

/-!
# Bzip2

A bzip2 stream as a source of bytes.  A block is undone in layers, each a
function of its own: prefix codes that change every fifty symbols, runs and
move-to-front ranks, the block-sorting transform, the optional inversion of
single bits, and runs of four to 255 + 4 equal bytes.

Every block ends with a check of its output, and the stream with a check of
all blocks; what follows the first stream is not looked at.  A block is known
only when all its bits have arrived.

## Main definitions

* `Bzip2.source` — the source that a compressed stream is.
-/

namespace ContentPreview.Archive.Bzip2

/-! ## Mask counts

Old bzip2 writers could invert single bits of a block before sorting it, at
distances that the format lays down in a table of 512 counts.  The counts are
used in turn and start over after the last one.
-/

/-- The distances between inverted bits, as laid down by the format. -/
def maskCounts : Array Nat :=
  #[619, 720, 127, 481, 931, 816, 813, 233, 566, 247, 985, 724, 205, 454, 863, 491,
    741, 242, 949, 214, 733, 859, 335, 708, 621, 574, 73, 654, 730, 472, 419, 436,
    278, 496, 867, 210, 399, 680, 480, 51, 878, 465, 811, 169, 869, 675, 611, 697,
    867, 561, 862, 687, 507, 283, 482, 129, 807, 591, 733, 623, 150, 238, 59, 379,
    684, 877, 625, 169, 643, 105, 170, 607, 520, 932, 727, 476, 693, 425, 174, 647,
    73, 122, 335, 530, 442, 853, 695, 249, 445, 515, 909, 545, 703, 919, 874, 474,
    882, 500, 594, 612, 641, 801, 220, 162, 819, 984, 589, 513, 495, 799, 161, 604,
    958, 533, 221, 400, 386, 867, 600, 782, 382, 596, 414, 171, 516, 375, 682, 485,
    911, 276, 98, 553, 163, 354, 666, 933, 424, 341, 533, 870, 227, 730, 475, 186,
    263, 647, 537, 686, 600, 224, 469, 68, 770, 919, 190, 373, 294, 822, 808, 206,
    184, 943, 795, 384, 383, 461, 404, 758, 839, 887, 715, 67, 618, 276, 204, 918,
    873, 777, 604, 560, 951, 160, 578, 722, 79, 804, 96, 409, 713, 940, 652, 934,
    970, 447, 318, 353, 859, 672, 112, 785, 645, 863, 803, 350, 139, 93, 354, 99,
    820, 908, 609, 772, 154, 274, 580, 184, 79, 626, 630, 742, 653, 282, 762, 623,
    680, 81, 927, 626, 789, 125, 411, 521, 938, 300, 821, 78, 343, 175, 128, 250,
    170, 774, 972, 275, 999, 639, 495, 78, 352, 126, 857, 956, 358, 619, 580, 124,
    737, 594, 701, 612, 669, 112, 134, 694, 363, 992, 809, 743, 168, 974, 944, 375,
    748, 52, 600, 747, 642, 182, 862, 81, 344, 805, 988, 739, 511, 655, 814, 334,
    249, 515, 897, 955, 664, 981, 649, 113, 974, 459, 893, 228, 433, 837, 553, 268,
    926, 240, 102, 654, 459, 51, 686, 754, 806, 760, 493, 403, 415, 394, 687, 700,
    946, 670, 656, 610, 738, 392, 760, 799, 887, 653, 978, 321, 576, 617, 626, 502,
    894, 679, 243, 440, 680, 879, 194, 572, 640, 724, 926, 56, 204, 700, 707, 151,
    457, 449, 797, 195, 791, 558, 945, 679, 297, 59, 87, 824, 713, 663, 412, 693,
    342, 606, 134, 108, 571, 364, 631, 212, 174, 643, 304, 329, 343, 97, 430, 751,
    497, 314, 983, 374, 822, 928, 140, 206, 73, 263, 980, 736, 876, 478, 430, 305,
    170, 514, 364, 692, 829, 82, 855, 953, 676, 246, 369, 970, 294, 750, 807, 827,
    150, 790, 288, 923, 804, 378, 215, 828, 592, 281, 565, 555, 710, 82, 896, 831,
    547, 261, 524, 462, 293, 465, 502, 56, 661, 821, 976, 991, 658, 869, 905, 758,
    745, 193, 768, 550, 608, 933, 378, 286, 215, 979, 792, 961, 61, 688, 793, 644,
    986, 403, 106, 366, 905, 644, 372, 567, 466, 434, 645, 210, 389, 550, 919, 135,
    780, 773, 635, 389, 707, 100, 626, 958, 165, 504, 920, 176, 193, 713, 857, 265,
    203, 50, 668, 108, 645, 990, 626, 197, 510, 357, 358, 850, 858, 364, 936, 638]

/-- How many bytes are fetched at a time. -/
def fetchSize : Nat := 8192

/-- The longest code word. -/
def longestWord : Nat := 20

/-- How many bits are read before it is clear that there is no such word. -/
def longestTry : Nat := longestWord + 1

/-- How many symbols are read with one code. -/
def groupSize : Nat := 50

/-- The number of selectors that are kept. -/
def maxSelectors : Nat := 18002

/-! ## The codes of a block -/

/-- The bytes that occur in a block: sixteen bits for the ranges of sixteen
bytes, and sixteen bits for each range that is used. -/
def alphabet (data : ByteArray) : BitReader (List UInt8) := do
  let ranges ← (List.range 16).mapM fun _ => highBit data
  let members ← ranges.mapM fun used =>
    if used = 1 then (List.range 16).mapM fun _ => highBit data else pure []
  return ((List.range 16).zip members).flatMap fun (range, flags) =>
    flags.zipIdx.filterMap fun (flag, n) =>
      if flag = 1 then some (UInt8.ofNat (16 * range + n)) else none

/-- The number of ones before the next zero, at most `limit`. -/
def ones (data : ByteArray) : Nat → BitReader Nat
  | 0 => malformed
  | limit + 1 => do
    if (← highBit data) = 0 then return 0
    else return 1 + (← ones data limit)

/-- Moves the item at a rank to the front; the front item is the result. -/
def toFront {α : Type} (rank : Nat) (items : List α) : Option (α × List α) :=
  match items[rank]? with
  | some item => some (item, item :: items.eraseIdx rank)
  | none => none

/-- The items that a sequence of ranks calls up. -/
def byRank {α : Type} : List Nat → List α → List α
  | [], _ => []
  | rank :: rest, items =>
    match toFront rank items with
    | some (item, items) => item :: byRank rest items
    | none => []

/-- The word length of the next symbol: the last length changed by one as long
as a one bit says so. -/
def wordLength (data : ByteArray) : Nat → Nat → BitReader Nat
  | 0, _ => malformed
  | steps + 1, length => do
    if length < 1 ∨ longestWord < length then malformed
    if (← highBit data) = 0 then return length
    let down ← highBit data
    wordLength data steps (if down = 1 then length - 1 else length + 1)

/-- The word lengths of `count` symbols. -/
def wordLengths (data : ByteArray) : Nat → Nat → BitReader (List Nat)
  | 0, _ => return []
  | count + 1, length => do
    let length ← wordLength data (8 * data.size + 1) length
    return length :: (← wordLengths data count length)

/-- The codes of a block in the order of their use, one for each group of
symbols. -/
def groupCodes (data : ByteArray) (symbols : Nat) : BitReader (List PrefixCode) := do
  let codes ← highBits data 0 3
  if codes < 2 ∨ 6 < codes then malformed
  let selectors ← highBits data 0 15
  if selectors < 1 then malformed
  let ranks ← (List.range selectors).mapM fun _ => ones data codes
  let tables ← (List.range codes).mapM fun _ => do
    let first ← highBits data 0 5
    return PrefixCode.ofLengths longestTry (← wordLengths data symbols first)
  return byRank (ranks.take maxSelectors) tables

/-! ## Ranks and runs -/

/-- A block being read. -/
structure Progress where
  /-- The codes of the groups to come. -/
  groups : List PrefixCode
  /-- The code of the current group and the number of symbols left in it. -/
  current : Option (PrefixCode × Nat) := none
  /-- The weight of the next digit of a run length. -/
  weight : Nat := 1
  /-- The run length so far. -/
  run : Nat := 0
  /-- The bytes of the block by recency. -/
  recent : List UInt8
  bytes : ByteArray := .empty

/-- Appends the run that has been read. -/
def Progress.flush (p : Progress) : Progress :=
  { p with
    weight := 1, run := 0,
    bytes := (List.range p.run).foldl (fun bytes _ => bytes.push (p.recent.headD 0)) p.bytes }

/-- The next symbol, with the code of the current group. -/
def nextSymbol (data : ByteArray) (p : Progress) : BitReader (Nat × Progress) := do
  let (code, left, groups) ← match p.current, p.groups with
    | some (code, left + 1), groups => pure (code, left, groups)
    | _, code :: groups => pure (code, groupSize - 1, groups)
    | _, [] => malformed
  let s ← code.next (highBit data)
  return (s, { p with groups, current := some (code, left) })

/-- The bytes of a block before the sorting transform is undone: digits of run
lengths, ranks of bytes, and the symbol that ends the block.  Every symbol
takes at least one bit, so there are fewer steps than bits. -/
def rankedBytes (data : ByteArray) (limit endSymbol : Nat) : Nat → Progress → BitReader ByteArray
  | 0, _ => malformed
  | steps + 1, p => do
    let (s, p) ← nextSymbol data p
    if s < 2 then
      if 1 <<< 21 ≤ p.weight then malformed
      rankedBytes data limit endSymbol steps
        { p with run := p.run + (s + 1) * p.weight, weight := 2 * p.weight }
    else
      if limit < p.bytes.size + p.run then malformed
      let p := p.flush
      if s = endSymbol then return p.bytes
      if limit ≤ p.bytes.size then malformed
      match toFront (s - 1) p.recent with
      | none => malformed
      | some (b, recent) =>
        rankedBytes data limit endSymbol steps { p with recent, bytes := p.bytes.push b }

/-! ## The sorting transform -/

/-- How many bytes are less than each value. -/
def lesser (bytes : ByteArray) : Array Nat :=
  let counts := bytes.foldl (fun (counts : Array Nat) b => counts.modify b.toNat (· + 1))
    (Array.replicate 256 0)
  (counts.foldl (fun (sums, sum) n => (sums.push sum, sum + n)) (#[], 0)).1

/-- For each place in sorted order, where the byte that follows it is found. -/
def followers (bytes : ByteArray) : Array Nat :=
  let step : Array Nat × Array Nat → Nat → Array Nat × Array Nat := fun (slots, links) i =>
    let b := (bytes[i]?.getD 0).toNat
    let slot := slots[b]?.getD 0
    (slots.modify b (· + 1), links.setIfInBounds slot i)
  ((List.range bytes.size).foldl step (lesser bytes, Array.replicate bytes.size 0)).2

/-- Follows the links from a place for `count` steps, noting the bytes. -/
def follow (bytes : ByteArray) (links : Array Nat) : Nat → Nat → ByteArray → ByteArray
  | 0, _, out => out
  | count + 1, place, out =>
    follow bytes links count (links[place]?.getD 0) (out.push (bytes[place]?.getD 0))

/-- The text whose sorted rotations end in the given bytes, the text itself
being the rotation at `origin`, with the byte that comes round after its last
one. -/
def unsort (bytes : ByteArray) (origin : Nat) : ByteArray :=
  let links := followers bytes
  follow bytes links (bytes.size + 1) (links[origin]?.getD 0) .empty

/-! ## Single bits and long runs -/

/-- Inverts the lowest bit of the bytes at which a count, taken from the table
of masks in turn, comes down to one. -/
def unmask : List UInt8 → Nat → Nat → List UInt8 → List UInt8
  | [], _, _, done => done.reverse
  | b :: rest, index, 0, done =>
    unmask rest ((index + 1) % 512) ((maskCounts[index]?.getD 1) - 1)
      ((if (maskCounts[index]?.getD 1) - 1 = 1 then b ^^^ 1 else b) :: done)
  | b :: rest, index, count + 1, done =>
    unmask rest index count ((if count = 1 then b ^^^ 1 else b) :: done)

/-- Appends a byte `count` times. -/
def repeatByte (b : UInt8) (count : Nat) (out : ByteArray) : ByteArray :=
  (List.range count).foldl (fun out _ => out.push b) out

/-- Four equal bytes are followed by the number of further ones.  `run` is the
number of equal bytes at the end of the output.  The last number may be
missing, which the answer tells; the byte `beyond` is taken for it. -/
def expandRuns (beyond : UInt8) : List UInt8 → Nat → UInt8 → ByteArray → ByteArray × Bool
  | [], run, last, out =>
    if run = 4 then (repeatByte last beyond.toNat out, true) else (out, false)
  | b :: rest, run, last, out =>
    if run = 4 then expandRuns beyond rest 0 last (repeatByte last b.toNat out)
    else expandRuns beyond rest (if run ≠ 0 ∧ b = last then run + 1 else 1) b (out.push b)

/-! ## Blocks and streams -/

/-- A block as it stands in the stream. -/
structure Block where
  check : Nat
  isMasked : Bool
  origin : Nat
  bytes : ByteArray

/-- What stands at a place between blocks. -/
inductive Part where
  | block (b : Block)
  /-- The end of the stream with the check of all blocks. -/
  | close (check : Nat)

/-- Reads bytes that have to be the given ones. -/
def signature (data : ByteArray) : List Nat → BitReader Unit
  | [] => return ()
  | b :: rest => do
    if (← highBits data 0 8) ≠ b then malformed
    signature data rest

/-- The next part of a stream with blocks of at most `limit` bytes. -/
def part (data : ByteArray) (limit : Nat) : BitReader Part := do
  let first ← highBits data 0 8
  if first = 0x17 then
    signature data [0x72, 0x45, 0x38, 0x50, 0x90]
    return .close (← highBits data 0 32)
  if first ≠ 0x31 then malformed
  signature data [0x41, 0x59, 0x26, 0x53, 0x59]
  let check ← highBits data 0 32
  let isMasked := (← highBit data) = 1
  let origin ← highBits data 0 24
  if limit + 10 < origin then malformed
  let recent ← alphabet data
  if recent = [] then malformed
  let groups ← groupCodes data (recent.length + 2)
  let bytes ← rankedBytes data limit (recent.length + 1) (8 * data.size + 1) { groups, recent }
  if bytes.size ≤ origin then malformed
  return .block { check, isMasked, origin, bytes }

/-- The output of a block, and whether its last run lacks a number. -/
def Block.output (b : Block) : ByteArray × Bool :=
  let text := (unsort b.bytes b.origin).toList
  let text := if b.isMasked then unmask text 0 0 [] else text
  expandRuns (text.getLastD 0) text.dropLast 0 0 .empty

/-- The steps from a bit position on; `combined` is the check of the blocks so
far.  Every part takes bits, so there are fewer parts than bits. -/
def stepsFrom (data : ByteArray) (limit : Nat) : Nat → Nat → UInt32 → List Step
  | 0, _, _ => []
  | steps + 1, pos, combined =>
    match (part data limit).run pos with
    | .error (.fault need) => [.fault need]
    | .error .starved => []
    | .ok (.close check, pos) =>
      if check = combined.toNat then [.finish (bytesFor pos) (bytesFor pos) true]
      else [.fault (bytesFor pos)]
    | .ok (.block b, pos) =>
      let (out, lacksNumber) := b.output
      let need := bytesFor pos
      let check := crc32Forward out.toList
      .output need need out.toList ::
        if lacksNumber then [if b.isMasked then .lateFault need else .fault need]
        else if b.check ≠ check.toNat then [.fault need]
        else stepsFrom data limit steps pos (((combined <<< 1) ||| (combined >>> 31)) ^^^ check)

/-- What decompression of the first stream does. -/
def steps (data : ByteArray) : List Step :=
  match start.run 0 with
  | .error (.fault need) => [.fault need]
  | .error .starved => []
  | .ok (level, pos) => stepsFrom data (100000 * level) (8 * data.size) pos 0
where
  /-- The beginning of a stream, which tells the size of the blocks. -/
  start : BitReader Nat := do
    signature data [0x42, 0x5A, 0x68]
    let digit ← highBits data 0 8
    if digit < 49 ∨ 57 < digit then malformed
    return digit - 48

/-- The source that a compressed stream is. -/
def source (s : Stream) : Inflow :=
  let data : ByteArray := ⟨s.bytes.toArray⟩
  .packed {
    window := 0
    steps := steps data
    fetches := fetchTotals fetchSize s.pieces
    total := data.size
    broken := s.failure.isSome }

end ContentPreview.Archive.Bzip2
