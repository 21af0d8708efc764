import ContentPreview.Bitstream
import ContentPreview.Config
import ContentPreview.Json.Value
import ContentPreview.Keyed
import ContentPreview.Record
import ContentPreview.Toml.Table
import ContentPreview.Tree.Stored

/-!
# The written forms of the domain

How each type of the library is written as JSON and read back, and how a
configuration is read from a settings file.  In JSON a structure is an object
whose fields stand in a fixed order, a choice without data is a string, and a
choice with data is an object with one field.

Reading follows the rules of `Json.Fields`.  Readers of nested data are given
the number of containers they may still enter, so that no text can lead to an
unbounded descent.

## Main definitions

* `Kind`, `ReadAccess`, `Record`, `Config`, `Bitstream`, `ItemRef`, `View`
  and `StoredNode` each have `toJson` and `ofJson?`.
* `Config.ofToml?` — the configuration of a settings file.
-/

namespace ContentPreview

open Json (Value Fields)

/-! ## Kinds and access -/

/-- The names of the compressions. -/
def Compression.choices : List (String × Compression) :=
  [("None", .uncompressed), ("Gzip", .gzip), ("Bzip2", .bzip2)]

/-- The JSON form of a compression. -/
def Compression.toJson : Compression → Value
  | .uncompressed => .ofText "None"
  | .gzip => .ofText "Gzip"
  | .bzip2 => .ofText "Bzip2"

/-- The names of the kinds that carry no data. -/
def Kind.choices : List (String × Kind) :=
  [("PlainText", .plainText), ("Html", .html), ("ZipArchive", .zipArchive),
   ("Unsupported", .unsupported)]

/-- The JSON form of a kind. -/
def Kind.toJson : Kind → Value
  | .plainText => .ofText "PlainText"
  | .html => .ofText "Html"
  | .zipArchive => .ofText "ZipArchive"
  | .tarArchive c => .ofFields [("TarArchive", .ofFields [("compression", c.toJson)])]
  | .unsupported => .ofText "Unsupported"

/-- The kind that a JSON value stands for. -/
def Kind.ofJson? : Value → Option Kind
  | .object [(some "TarArchive", v)] => do
    let fields ← Fields.read ["compression"] v
    return .tarArchive (← fields.required "compression" (Json.variant? Compression.choices))
  | v => Json.variant? Kind.choices v

/-- The names of the answers of a policy. -/
def ReadAccess.choices : List (String × ReadAccess) :=
  [("Granted", .granted), ("Denied", .denied), ("LicenseRequired", .licenseRequired)]

/-- The JSON form of an answer of a policy. -/
def ReadAccess.toJson (access : ReadAccess) : Value := .ofText access.label

/-- The answer of a policy that a JSON value stands for. -/
def ReadAccess.ofJson? (v : Value) : Option ReadAccess := Json.variant? ReadAccess.choices v

/-! ## Flat structures -/

/-- The JSON form of a 64-bit number. -/
def sizeToJson (size : UInt64) : Value := .ofNat size.toNat

/-- The JSON form of a record. -/
def Record.toJson (r : Record) : Value :=
  .ofFields [("path", .ofText r.path), ("size", sizeToJson r.size),
    ("is_directory", .bool r.isDirectory)]

/-- The record that a JSON value stands for. -/
def Record.ofJson? (v : Value) : Option Record := do
  let fields ← Fields.read ["path", "size", "is_directory"] v
  return {
    path := ← fields.required "path" Value.text?
    size := ← fields.required "size" Value.uint64?
    isDirectory := ← fields.required "is_directory" Value.bool? }

/-- The JSON form of a configuration. -/
def Config.toJson (config : Config) : Value :=
  .ofFields [("preview_enabled", .bool config.previewEnabled),
    ("max_leaf_count", .ofNat config.maxLeafCount),
    ("max_content_length", .ofNat config.maxContentLength),
    ("generate_on_page_load", .bool config.generateOnPageLoad)]

/-- The configuration that a JSON value stands for; every field has a default. -/
def Config.ofJson? (v : Value) : Option Config := do
  let standard : Config := {}
  let fields ← Fields.read
    ["preview_enabled", "max_leaf_count", "max_content_length", "generate_on_page_load"] v
  return {
    previewEnabled := ← fields.withDefault "preview_enabled" standard.previewEnabled Value.bool?
    maxLeafCount := ← fields.withDefault "max_leaf_count" standard.maxLeafCount
      (Value.natBelow? Text.wordBound)
    maxContentLength := ← fields.withDefault "max_content_length" standard.maxContentLength
      (Value.natBelow? Text.wordBound)
    generateOnPageLoad := ← fields.withDefault "generate_on_page_load"
      standard.generateOnPageLoad Value.bool? }

/-- The configuration that a settings file stands for. -/
def Config.ofToml? (entries : Toml.Entries) : Option Config := do
  let standard : Config := {}
  let flag (name : String) (fallback : Bool) : Option Bool :=
    match entries.find? name with
    | none => some fallback
    | some (.boolean b) => some b
    | some _ => none
  let bound (name : String) (fallback : Nat) : Option Nat :=
    match entries.find? name with
    | none => some fallback
    | some (.integer n) => if 0 ≤ n ∧ n < Text.wordBound then some n.toNat else none
    | some _ => none
  return {
    previewEnabled := ← flag "preview_enabled" standard.previewEnabled
    maxLeafCount := ← bound "max_leaf_count" standard.maxLeafCount
    maxContentLength := ← bound "max_content_length" standard.maxContentLength
    generateOnPageLoad := ← flag "generate_on_page_load" standard.generateOnPageLoad }

/-- The JSON form of a bitstream. -/
def Bitstream.toJson (b : Bitstream) : Value :=
  .ofFields [("id", .ofText b.id), ("name", .ofText? b.name), ("mime_type", .ofText b.mimeType),
    ("sequence_id", .integer b.sequenceId.toInt)]

/-- The bitstream that a JSON value stands for. -/
def Bitstream.ofJson? (v : Value) : Option Bitstream := do
  let fields ← Fields.read ["id", "name", "mime_type", "sequence_id"] v
  return {
    id := ← fields.required "id" Value.text?
    name := ← fields.nullable "name" Value.text?
    mimeType := ← fields.required "mime_type" Value.text?
    sequenceId := ← fields.required "sequence_id" Value.int32? }

/-- The JSON form of an item reference. -/
def ItemRef.toJson (item : ItemRef) : Value :=
  .ofFields [("id", .ofText item.id), ("handle", .ofText? item.handle)]

/-- The item reference that a JSON value stands for. -/
def ItemRef.ofJson? (v : Value) : Option ItemRef := do
  let fields ← Fields.read ["id", "handle"] v
  return {
    id := ← fields.required "id" Value.text?
    handle := ← fields.nullable "handle" Value.text? }

/-! ## Trees -/

mutual

/-- The JSON form of a view tree; a node without children has no field for
them. -/
def View.toJson : View → Value
  | ⟨name, content, size, isDirectory, children⟩ =>
    .ofFields ([("name", .ofText name), ("content", .ofText content), ("size", sizeToJson size),
        ("is_directory", .bool isDirectory)]
      ++ if children.isEmpty then [] else [("children", .ofFields (View.toJsonAll children))])

/-- The JSON forms of the children of a node. -/
def View.toJsonAll : List (String × View) → List (String × Value)
  | [] => []
  | (key, v) :: rest => (key, v.toJson) :: View.toJsonAll rest

end

/-- The entries of an object, each read by `decode`; of a repeated key the last
value counts. -/
def entriesOfJson? {α : Type} (decode : Value → Option α) (v : Value) :
    Option (List (String × α)) :=
  match v with
  | .object fields => do
    let entries ← fields.mapM fun (key, value) => do return (← key, ← decode value)
    return Keyed.ofEntries entries
  | _ => none

/-- The view tree that a JSON value stands for, if it enters at most `depth`
containers. -/
def View.ofJson? : Nat → Value → Option View
  | 0, _ => none
  | depth + 1, v => do
    let fields ← Fields.read ["name", "content", "size", "is_directory", "children"] v
    let children : Value → Option (List (String × View)) :=
      match depth with
      | 0 => fun _ => none
      | below + 1 => entriesOfJson? (View.ofJson? below)
    return {
      name := ← fields.required "name" Value.text?
      content := ← fields.withDefault "content" "" Value.text?
      size := ← fields.required "size" Value.uint64?
      isDirectory := ← fields.required "is_directory" Value.bool?
      children := ← fields.withDefault "children" [] children }

mutual

/-- The JSON form of a stored tree. -/
def StoredNode.toJson : StoredNode → Value
  | ⟨id, bitstream, name, content, isDirectory, size, children⟩ =>
    .ofFields [("id", .ofNat id), ("bitstream", .ofText bitstream), ("name", .ofText name),
      ("content", .ofText content), ("is_directory", .bool isDirectory), ("size", .ofText size),
      ("children", .ofFields (StoredNode.toJsonAll children))]

/-- The JSON forms of the children of a stored node. -/
def StoredNode.toJsonAll : List (String × StoredNode) → List (String × Value)
  | [] => []
  | (key, node) :: rest => (key, node.toJson) :: StoredNode.toJsonAll rest

end

/-- The stored tree that a JSON value stands for, if it enters at most `depth`
containers. -/
def StoredNode.ofJson? : Nat → Value → Option StoredNode
  | 0, _ => none
  | depth + 1, v => do
    let fields ← Fields.read
      ["id", "bitstream", "name", "content", "is_directory", "size", "children"] v
    let children : Value → Option (List (String × StoredNode)) :=
      match depth with
      | 0 => fun _ => none
      | below + 1 => entriesOfJson? (StoredNode.ofJson? below)
    return {
      id := ← fields.required "id" (Value.natBelow? Text.wordBound)
      bitstream := ← fields.required "bitstream" Value.text?
      name := ← fields.required "name" Value.text?
      content := ← fields.required "content" Value.text?
      isDirectory := ← fields.required "is_directory" Value.bool?
      size := ← fields.required "size" Value.text?
      children := ← fields.required "children" children }

/-- A list of stored trees. -/
def StoredNode.listOfJson? (v : Value) : Option (List StoredNode) := do
  (← v.list?).mapM (StoredNode.ofJson? (Json.depthLimit - 1))

end ContentPreview
