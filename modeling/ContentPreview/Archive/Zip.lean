import ContentPreview.Archive.Coding
import ContentPreview.Archive.Member
import ContentPreview.Keyed
import ContentPreview.Text.Encoding

/-!
# ZIP archives

The members of a ZIP archive, read from its central directory.

An archive is found from its end: the end records in it are tried from the
last one back, and the first one whose directory can be read is used.  Data
may stand in front of an archive, so that all offsets are off by the same
amount; the first directory entry shows by how much.  Archives that outgrow
the fields of the end record have a second, wider record in front of it, found
through a locator.

A directory entry gives the name, the size and the place of a member, each of
which an extra field may replace.  Entries of one name count once, at the
place of the first and with the data of the last.  In the end every member has
to have a local header at its place.

## Main definitions

* `Zip.contents` — the members of an archive.
-/

namespace ContentPreview.Archive.Zip

/-- The signatures that mark the structures of an archive. -/
def endSignature : List UInt8 := [0x50, 0x4B, 5, 6]

/-- The signature of a directory entry. -/
def entrySignature : List UInt8 := [0x50, 0x4B, 1, 2]

/-- The signature of a local header. -/
def localSignature : List UInt8 := [0x50, 0x4B, 3, 4]

/-- The signature of a wide end record. -/
def wideEndSignature : List UInt8 := [0x50, 0x4B, 6, 6]

/-- The signature of the locator of a wide end record. -/
def locatorSignature : List UInt8 := [0x50, 0x4B, 6, 7]

/-- The value of a 16-bit field that refers to a wider one. -/
def full16 : Nat := 0xFFFF

/-- The value of a 32-bit field that refers to a wider one. -/
def full32 : Nat := 0xFFFFFFFF

/-! ## Extra fields -/

/-- A directory entry as far as extra fields can change it. -/
structure Entry where
  rawName : List UInt8
  name : String
  comment : String
  size : Nat
  packedSize : Nat
  place : Nat
  method : Nat
  /-- Whether an extra field describes how the member is encrypted. -/
  hasCipher : Bool := false

/-- Why reading of extra fields ends. -/
inductive ExtraEnd where
  /-- The extra fields are cut short; what was read before counts. -/
  | short
  /-- The entry is unacceptable. -/
  | refused

/-- Computations that use up extra fields and fill in an entry. -/
abbrev ExtraReader := EStateM ExtraEnd (Entry × List UInt8)

/-- The next `count` bytes. -/
def nextBytes (count : Nat) : ExtraReader (List UInt8) := do
  let (entry, rest) ← get
  if rest.length < count then throw .short
  set (entry, rest.drop count)
  return rest.take count

/-- The next little-endian number of `count` bytes. -/
def nextNumber (count : Nat) : ExtraReader Nat := return ofLittle (← nextBytes count)

/-- Changes the entry. -/
def update (change : Entry → Entry) : ExtraReader Unit :=
  modify fun (entry, rest) => (change entry, rest)

/-- Refuses the entry unless a condition holds. -/
def demand (condition : Bool) : ExtraReader Unit := if condition then pure () else throw .refused

/-- Wide sizes and place: each is there if the field is long enough for all
three, or if its narrow value refers to it. -/
def wideField (length : Nat) : ExtraReader Unit := do
  let wide (narrow : Entry → Nat) (change : Nat → Entry → Entry) : ExtraReader Nat := do
    if 24 ≤ length ∨ narrow (← get).1 = full32 then
      let value ← nextNumber 8
      update (change value)
      return 8
    else return 0
  let a ← wide Entry.size fun n e => { e with size := n }
  let b ← wide Entry.packedSize fun n e => { e with packedSize := n }
  let c ← wide Entry.place fun n e => { e with place := n }
  demand (a + b + c ≤ length)
  let _ ← nextBytes (length - (a + b + c))

/-- A text in UTF-8 that replaces another, whose check it carries. -/
def unicodeField (length : Nat) (replaced : List UInt8) : ExtraReader (List UInt8 × String) := do
  let _ ← nextBytes 1
  let check ← nextNumber 4
  demand (5 ≤ length)
  let bytes ← nextBytes (length - 5)
  demand (check == (crc32 replaced).toNat)
  match Text.Utf8.decodeStrict bytes with
  | some text => return (bytes, text)
  | none => throw .refused

/-- How a member is encrypted. -/
def cipherField (length : Nat) : ExtraReader Unit := do
  demand (length == 7)
  let version ← nextNumber 2
  let vendor ← nextNumber 2
  let strength ← nextNumber 1
  let method ← nextNumber 2
  demand (vendor == 0x4541 && (version == 1 || version == 2) && 1 ≤ strength && strength ≤ 3)
  update fun e => { e with method, hasCipher := true }

/-- The number of ones among the lowest eight bits. -/
def onesOf (n : Nat) : Nat := (List.range 8).countP n.testBit

/-- The times of a member, one for each flag. -/
def timesField (length : Nat) : ExtraReader Unit := do
  let flags ← nextNumber 1
  demand ((length == 5 || length == 1 + 4 * onesOf flags) && flags < 8)
  let _ ← nextBytes (length - 1)

/-- The times of a member in another format. -/
def fineTimesField (length : Nat) : ExtraReader Unit := do
  demand (length == 32)
  let _ ← nextBytes 4
  demand ((← nextNumber 2) == 1)
  demand ((← nextNumber 2) == 24)
  let _ ← nextBytes 24

/-- The next extra field. -/
def extraField : ExtraReader Unit := do
  let tag ← nextNumber 2
  let length ← nextNumber 2
  match tag with
  | 0x0001 => wideField length
  | 0x000A => fineTimesField length
  | 0x5455 => timesField length
  | 0x6375 =>
    let (_, comment) ← unicodeField length (Text.Utf8.encode (← get).1.comment)
    update fun e => { e with comment }
  | 0x7075 =>
    let (rawName, name) ← unicodeField length (← get).1.rawName
    update fun e => { e with rawName, name }
  | 0x9901 => cipherField length
  | _ => let _ ← nextBytes length

/-- All extra fields.  Each takes at least four bytes, so there are fewer
fields than bytes. -/
def extraFields : Nat → ExtraReader Unit
  | 0 => return ()
  | steps + 1 => do
    if (← get).2 = [] then return ()
    extraField
    extraFields steps

/-- The entry with its extra fields applied, unless it has to be refused. -/
def applyExtra (entry : Entry) (extra : List UInt8) : Option Entry :=
  match (extraFields extra.length).run (entry, extra) with
  | .ok _ (entry, _) => some entry
  | .error .short (entry, _) => some entry
  | .error .refused _ => none

/-! ## The directory -/

/-- The method number that says that a member is encrypted. -/
def cipherMethod : Nat := 99

/-- Where the directory of an archive is. -/
structure Directory where
  /-- How far the archive is moved by data in front of it. -/
  shift : Nat
  start : Nat
  count : Nat

/-- The directory entry at an offset, and the offset behind it. -/
def entryAt (data : ByteArray) (d : Directory) (offset : Nat) : Option (Entry × Nat) := do
  if !occursAt data entrySignature offset then none
  let flags ← little data (offset + 8) 2
  let method ← little data (offset + 10) 2
  let packedSize ← little data (offset + 20) 4
  let size ← little data (offset + 24) 4
  let nameLength ← little data (offset + 28) 2
  let extraLength ← little data (offset + 30) 2
  let commentLength ← little data (offset + 32) 2
  let place ← little data (offset + 42) 4
  let rawName ← slice data (offset + 46) nameLength
  let extra ← slice data (offset + 46 + nameLength) extraLength
  let comment ← slice data (offset + 46 + nameLength + extraLength) commentLength
  let decode := if flags.testBit 11 then Text.Utf8.decodeLossy else Text.CodePage437.decode
  let e ← applyExtra
    { rawName, name := decode rawName, comment := decode comment, size, packedSize, place, method }
    extra
  if e.method = cipherMethod ∧ !e.hasCipher then none
  if UInt64.size ≤ e.place + d.shift ∨ d.start ≤ e.place + d.shift then none
  return ({ e with place := e.place + d.shift },
    offset + 46 + nameLength + extraLength + commentLength)

/-- `count` directory entries from an offset on, newest first. -/
def entriesFrom (data : ByteArray) (d : Directory) : Nat → Nat → List Entry → Option (List Entry)
  | 0, _, known => some known.reverse
  | count + 1, offset, known => do
    let (e, offset) ← entryAt data d offset
    entriesFrom data d count offset (e :: known)

/-- The first offset from `start` on, and at most `stop`, that has a property. -/
def search (found : Nat → Bool) (start stop : Nat) : Option Nat :=
  (List.range' start (stop + 1 - start)).find? found

/-- The last offset up to `stop` that has a property. -/
def searchBack (found : Nat → Bool) : Nat → Option Nat
  | 0 => if found 0 then some 0 else none
  | stop + 1 => if found (stop + 1) then some (stop + 1) else searchBack found stop

/-- Whether a signature stands at an offset and ends before `stop`. -/
def occursBefore (data : ByteArray) (signature : List UInt8) (stop offset : Nat) : Bool :=
  offset + 4 ≤ stop && occursAt data signature offset

/-- The directory that a wide end record describes.  Its offset is searched
for from where the locator puts it, and how far it has moved is how far
everything has moved. -/
def wideDirectory (data : ByteArray) (locator : Nat) : Option Directory := do
  let locatorDisk ← little data (locator + 4) 4
  let nominal ← little data (locator + 8) 8
  let disks ← little data (locator + 16) 4
  if locator ≤ nominal ∨ 1 < disks then none
  let candidate (record : Nat) : Option (Nat × Nat × Nat) := do
    if !occursBefore data wideEndSignature locator record then none
    let length ← little data (record + 4) 8
    let disk ← little data (record + 20) 4
    let count ← little data (record + 32) 8
    let offset ← little data (record + 48) 8
    if length < 44 ∨ length + 12 ≠ locator - record ∨ disk ≠ locatorDisk then none
    if record < 46 * count + offset then none
    return (record, count, offset)
  let record ← search (fun record => (candidate record).isSome) nominal (locator - 4)
  let (_, count, offset) ← candidate record
  let version ← little data (record + 12) 2
  let needed ← little data (record + 14) 2
  let disk ← little data (record + 16) 4
  let onDisk ← little data (record + 24) 8
  if count < onDisk ∨ version < needed ∨ disk ≠ locatorDisk then none
  let shift := record - nominal
  return ⟨shift, offset + shift, count⟩

/-- The directory that an end record describes by itself.  The first entry at
or behind the offset given there shows how far everything has moved. -/
def narrowDirectory (data : ByteArray) (record : Nat) : Option Directory := do
  let disk ← little data (record + 4) 2
  let startDisk ← little data (record + 6) 2
  let onDisk ← little data (record + 8) 2
  let count ← little data (record + 10) 2
  let offset ← little data (record + 16) 4
  if disk ≠ startDisk then none
  if count = 0 then
    let shift := record - offset
    return ⟨shift, offset + shift, onDisk⟩
  else
    if record ≤ offset then none
    let first ← search (occursBefore data entrySignature record) offset (record - 4)
    return ⟨first - offset, first, onDisk⟩

/-- The directory entries that the end record at an offset leads to. -/
def entriesOf (data : ByteArray) (record : Nat) : Option (List Entry) := do
  let count ← little data (record + 10) 2
  let offset ← little data (record + 16) 4
  let commentLength ← little data (record + 20) 2
  if data.size < record + 22 + commentLength then none
  let isWide := (count = full16 ∨ offset = full32) ∧ 20 ≤ record
    ∧ occursAt data locatorSignature (record - 20)
  let d ← if isWide then wideDirectory data (record - 20) else narrowDirectory data record
  entriesFrom data d d.count d.start []

/-- The directory entries of the last end record that leads to any. -/
def entries (data : ByteArray) : Option (List Entry) := do
  if data.size < 22 then none
  let record ← searchBack
    (fun record => occursAt data endSignature record && (entriesOf data record).isSome)
    (data.size - 4)
  entriesOf data record

/-! ## Members -/

/-- Entries under distinct names: a repeated name keeps its first place and
takes the last entry. -/
def distinct (entries : List Entry) : List Entry :=
  (Keyed.ofEntries (entries.map fun e => (e.name, e))).map Prod.snd

/-- Whether a local header stands at the place of an entry. -/
def hasLocalHeader (data : ByteArray) (e : Entry) : Bool :=
  occursAt data localSignature e.place && (slice data e.place 30).isSome

/-- The member of an entry; a name that ends in a separator of either kind is
the name of a directory. -/
def Entry.member (e : Entry) : ZipMember where
  name := e.name
  size := UInt64.ofNat e.size
  isDirectory := match e.name.toList.getLast? with
    | some c => c == '/' || c == '\\'
    | none => false

/-- The members of the entries up to the first without a local header. -/
def membersOf (data : ByteArray) : List Entry → Contents ZipMember
  | [] => .complete
  | e :: rest =>
    if hasLocalHeader data e then (membersOf data rest).prepend e.member else .damaged

/-- The members of a ZIP archive. -/
def contents (bytes : List UInt8) : Contents ZipMember :=
  let data : ByteArray := ⟨bytes.toArray⟩
  match entries data with
  | none => .damaged
  | some entries => membersOf data (distinct entries)

end ContentPreview.Archive.Zip
