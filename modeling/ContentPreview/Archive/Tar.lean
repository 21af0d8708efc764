import ContentPreview.Archive.Coding
import ContentPreview.Archive.Inflow
import ContentPreview.Archive.Member
import ContentPreview.Text.Cut
import ContentPreview.Text.Encoding
import ContentPreview.Text.Numeral

/-!
# TAR archives

The members of a TAR archive, read as a stream of 512-byte blocks.

A member is a header block, its data, and padding to the next block.  The
archive ends at a block of zeros or at the end of the data, if that falls
between two members.  Data are passed over only on the way to the next
header, and an archive that is too short for that is damaged.

Headers of the GNU and POSIX kinds may be preceded by members that describe
them: a long name, a long link name, and a list of extended attributes, of
which the path and the size matter.  At most one of each may be waiting, and a
member has to follow.  In headers of the old kind the same type letters have
no such effect.

## Main definitions

* `Tar.contents` — the members of an archive.
-/

namespace ContentPreview.Archive.Tar

/-- The size of a block. -/
def blockSize : Nat := 512

/-- How many bytes are read at a time when data are passed over. -/
def skipSpan : Nat := 32768

/-- How many bytes are read at first of data that describe a member. -/
def descriptionSpan : Nat := 8192

/-! ## Header fields -/

/-- The bytes up to the first zero. -/
def untilZero (field : List UInt8) : List UInt8 := field.takeWhile (· != 0)

/-- The bytes of a field of a block. -/
def field (block : List UInt8) (offset length : Nat) : List UInt8 :=
  (block.drop offset).take length

/-- An octal number, with blanks around it. -/
def octal (bytes : List UInt8) : Option Nat := do
  let text ← Text.Utf8.decodeStrict (untilZero bytes)
  Text.readUnsigned 8 Text.wordBound (Text.trim text.toList)

/-- A number field: octal text, or a binary number if the highest bit is set,
of which the last eight bytes count. -/
def number (bytes : List UInt8) : Option Nat :=
  if 0x80 ≤ bytes.headD 0 then some (ofBig (bytes.drop (bytes.length - 8))) else octal bytes

/-- The kinds of header. -/
inductive HeaderKind where
  | gnu
  | ustar
  | old
deriving DecidableEq

/-- A header block. -/
structure Header where
  block : List UInt8

namespace Header

/-- The kind of a header, told by its magic number and version. -/
def kind (h : Header) : HeaderKind :=
  let magic := field h.block 257 8
  if magic = "ustar  ".toUTF8.toList ++ [0] then .gnu
  else if magic = "ustar".toUTF8.toList ++ [0] ++ "00".toUTF8.toList then .ustar
  else .old

/-- The letter that tells the type of the member. -/
def typeLetter (h : Header) : Char := Char.ofNat (h.block[156]?.getD 0).toNat

/-- The sum of all bytes, those of the checksum field counted as blanks. -/
def byteSum (h : Header) : Nat :=
  let sum (bytes : List UInt8) : Nat := bytes.foldl (fun n b => n + b.toNat) 0
  sum (field h.block 0 148) + sum (h.block.drop 156) + 8 * 32

/-- Whether the checksum field holds the sum of the bytes. -/
def checksumOk (h : Header) : Bool := octal (field h.block 148 8) == some h.byteSum

/-- The number of data bytes that follow the header. -/
def size (h : Header) : Option Nat := number (field h.block 124 12)

/-- The type of the member as its letter tells. -/
def memberType (h : Header) : MemberType :=
  if h.typeLetter ∈ ['L', 'K', 'x', 'g'] then .extension
  else if h.typeLetter = '5' then .directory
  else .file

/-- Whether the member says something about the one after it. -/
def describesNext (h : Header) : Bool := h.kind ≠ .old && h.typeLetter ∈ ['L', 'K', 'x']

/-- The member name in the header. -/
def name (h : Header) : List UInt8 :=
  let name := untilZero (field h.block 0 100)
  let lead := untilZero (field h.block 345 155)
  if h.kind = .ustar ∧ lead ≠ [] then lead ++ 47 :: name else name

end Header

/-! ## Extended attributes -/

/-- A line of extended attributes: its length in decimal, a blank, and a key
and a value around an equals sign.  The length counts the line break. -/
def readAttribute (line : List UInt8) : Option (List UInt8 × List UInt8) := do
  let blank ← line.idxOf? 32
  let text ← Text.Utf8.decodeStrict (line.take blank)
  let length ← Text.readUnsigned 10 Text.wordBound text.toList
  if length ≠ line.length + 1 then none
  let entry := line.drop (blank + 1)
  let equals ← entry.idxOf? 61
  return (entry.take equals, entry.drop (equals + 1))

/-- The lines of extended attributes, up to an empty one. -/
def attributes (data : List UInt8) : List (Option (List UInt8 × List UInt8)) :=
  ((data.splitOn 10).takeWhile (· ≠ [])).map readAttribute

/-- The path given by extended attributes; malformed lines are passed over. -/
def attributePath (data : List UInt8) : Option (List UInt8) :=
  ((attributes data).filterMap id).lookup "path".toUTF8.toList

/-- The size given by extended attributes.  A malformed line before it, or a
value that is no size, means that none is given. -/
def attributeSize (data : List UInt8) : Option Nat := find (attributes data)
where
  /-- The value of the first entry for the size. -/
  find : List (Option (List UInt8 × List UInt8)) → Option Nat
    | [] => none
    | none :: _ => none
    | some (key, value) :: rest =>
      if key = "size".toUTF8.toList then do
        let text ← Text.Utf8.decodeStrict value
        Text.readUnsigned 10 Text.wordBound text.toList
      else find rest

/-! ## Sparse members -/

/-- The progress through the map of a sparse member. -/
structure SparseState where
  /-- Where the last piece of data ends in the member. -/
  reached : Nat := 0
  /-- The number of stored data bytes not yet claimed by a piece. -/
  unclaimed : Nat

/-- Adds an entry of the map, an offset and a length of data.  Entries whose
fields begin with a zero byte are unused. -/
def sparseEntry (stored : Nat) (s : SparseState) (entry : List UInt8) : Option SparseState :=
  if entry.headD 0 = 0 ∨ (entry.drop 12).headD 0 = 0 then some s
  else do
    let offset ← number (entry.take 12)
    let length ← number (entry.drop 12)
    if length ≠ 0 ∧ (stored - s.unclaimed) % blockSize ≠ 0 then none
    if offset < s.reached then none
    if Text.wordBound ≤ offset + length then none
    if s.unclaimed < length then none
    return ⟨offset + length, s.unclaimed - length⟩

/-- Adds `count` entries that stand one after the other. -/
def sparseEntries (stored : Nat) : Nat → List UInt8 → SparseState → Option SparseState
  | 0, _, s => some s
  | count + 1, map, s => do
    sparseEntries stored count (map.drop 24) (← sparseEntry stored s (map.take 24))

/-! ## The stream of members -/

/-- A TAR archive being read. -/
structure Reader where
  source : Inflow
  /-- The number of bytes read so far. -/
  position : Nat := 0
  /-- Where the next header begins. -/
  next : Nat := 0

namespace Reader

/-- Reads up to `count` bytes. -/
def take (grows : Bool) (span count : Nat) (r : Reader) : Option (List UInt8 × Reader) := do
  let (bytes, source) ← r.source.take grows span count
  return (bytes, { r with source, position := r.position + bytes.length })

/-- A whole block, or nothing at the end of the data; a part of a block is a
fault. -/
def block? (r : Reader) : Option (Option (List UInt8) × Reader) := do
  let (bytes, r) ← r.take false blockSize blockSize
  if bytes = [] then return (none, r)
  if bytes.length < blockSize then none
  return (some bytes, r)

/-- Passes over the data that are left before the next header. -/
def align (r : Reader) : Option Reader := do
  let gap := r.next - r.position
  let (bytes, r) ← r.take false skipSpan gap
  if bytes.length < gap then none
  return r

/-- The next header with the number of its data bytes, or nothing at the end
of the archive.  `override` is a size given by extended attributes; extension
headers keep their own. -/
def header? (override : Option Nat) (r : Reader) : Option (Option (Header × Nat) × Reader) := do
  let r ← r.align
  let (block, r) ← r.block?
  match block with
  | none => return (none, r)
  | some block =>
    if block.all (· == 0) then return (none, r)
    let h : Header := ⟨block⟩
    if !h.checksumOk then none
    let ownSize ← h.size
    let size := if h.memberType = .extension then ownSize else override.getD ownSize
    let rounded := (size + (blockSize - 1)) / blockSize * blockSize
    let start := r.next + blockSize
    if Text.wordBound ≤ size + (blockSize - 1) then none
    if Text.wordBound ≤ start + rounded then none
    return (some (h, size), { r with next := start + rounded })

/-- The blocks that continue the map of a sparse member. -/
def sparseBlocks (stored : Nat) : Nat → Reader → SparseState → Option (SparseState × Reader)
  | 0, _, _ => none
  | steps + 1, r, s => do
    let (block, r) ← r.block?
    let block ← block
    let r := { r with next := r.next + blockSize }
    let s ← sparseEntries stored 21 block s
    if block[504]?.getD 0 = 1 then sparseBlocks stored steps r s else return (s, r)

/-- The size of a sparse member, which has to agree with its map and with the
number of its data bytes. -/
def sparseSize (h : Header) (stored : Nat) (r : Reader) : Option (Nat × Reader) := do
  if h.kind ≠ .gnu then none
  let s ← sparseEntries stored 4 (field h.block 386 96) ⟨0, stored⟩
  let (s, r) ←
    if h.block[482]?.getD 0 = 1 then sparseBlocks stored (r.source.remaining + 1) r s
    else some (s, r)
  let size ← number (field h.block 483 12)
  if s.reached ≠ size ∨ s.unclaimed ≠ 0 then none
  return (size, r)

end Reader

/-- What has been said about a member that is yet to come. -/
structure Pending where
  longName : Option (List UInt8) := none
  longLink : Option (List UInt8) := none
  attributes : Option (List UInt8) := none

/-- Whether nothing has been said. -/
def Pending.isEmpty (p : Pending) : Bool :=
  p.longName.isNone && p.longLink.isNone && p.attributes.isNone

/-- Adds the data of a member that describes another, unless the same was said
before. -/
def Pending.add (p : Pending) (letter : Char) (data : List UInt8) : Option Pending :=
  match letter, p.longName, p.longLink, p.attributes with
  | 'L', none, _, _ => some { p with longName := some data }
  | 'K', _, none, _ => some { p with longLink := some data }
  | 'x', _, _, none => some { p with attributes := some data }
  | _, _, _, _ => none

/-- A long name without the zero byte that may end it. -/
def stripZero (name : List UInt8) : List UInt8 :=
  if name.getLast? = some 0 then name.dropLast else name

/-- The name of a member: the long name, the path among the attributes, or the
name in the header. -/
def memberName (p : Pending) (h : Header) : List UInt8 :=
  match p.longName with
  | some name => stripZero name
  | none => (p.attributes.bind attributePath).getD h.name

/-- The members from the next header on.  Every step reads a header block, so
there are fewer steps than bytes. -/
def members : Nat → Pending → Reader → Contents TarMember
  | 0, _, _ => .damaged
  | steps + 1, p, r =>
    match r.header? (p.attributes.bind attributeSize) with
    | none => .damaged
    | some (none, _) => if p.isEmpty then .complete else .damaged
    | some (some (h, size), r) =>
      if h.describesNext then
        match r.take true descriptionSpan size with
        | none => .damaged
        | some (data, r) =>
          match p.add h.typeLetter data with
          | none => .damaged
          | some p => members steps p r
      else
        match if h.typeLetter = 'S' then r.sparseSize h size else some (size, r) with
        | none => .damaged
        | some (size, r) =>
          (members steps {} r).prepend ⟨memberName p h, UInt64.ofNat size, h.memberType⟩

/-- The members of a TAR archive. -/
def contents (source : Inflow) : Contents TarMember :=
  members (source.remaining + 1) {} ⟨source, 0, 0⟩

end ContentPreview.Archive.Tar
