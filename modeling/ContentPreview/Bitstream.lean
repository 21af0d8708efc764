import ContentPreview.Kind
import ContentPreview.Text.Cut
import ContentPreview.Text.Encoding
import ContentPreview.Text.Numeral

/-!
# Bitstreams

A *bitstream* is one stored file of a repository: an identifier, an optional
file name, a declared MIME type and a position within its item.  Nothing here
holds content; a bitstream only describes where content belongs, who may see a
preview of it, and at what address it can be read.

## Main definitions

* `Bitstream`, `ItemRef` — a stored file, and the item that it belongs to.
* `Policy`, `Gate` — the rights of a caller, and the policy behind the master
  switch.
* `previewUrl` — the address of a bitstream.
-/

namespace ContentPreview

/-! ## Bitstreams and their items -/

/-- The identifier under which a bitstream is known. -/
abbrev BitstreamId := String

/-- The description of one stored file. -/
structure Bitstream where
  id : BitstreamId
  /-- The file name; a bitstream may have none, which differs from an empty one. -/
  name : Option String
  /-- The MIME type as declared, parameters included. -/
  mimeType : String
  /-- The position of the bitstream within its item. -/
  sequenceId : Int32
deriving DecidableEq

namespace Bitstream

/-- The kind that the declared MIME type stands for. -/
def kind (b : Bitstream) : Kind := Kind.ofMime b.mimeType

/-- The file name, or the empty text where there is none. -/
def nameOrEmpty (b : Bitstream) : String := b.name.getD ""

end Bitstream

/-- The item that a bitstream belongs to. -/
structure ItemRef where
  id : String
  /-- The persistent handle of the item, if one was assigned. -/
  handle : Option String
deriving DecidableEq

/-! ## Who may see a preview

The answer of an access policy for a bitstream, and the gate that combines it
with the master switch.  The right to read and the right to a preview differ:
switching previews off takes away the latter only.
-/

/-- What a policy says about reading a bitstream. -/
inductive ReadAccess where
  | granted
  | denied
  /-- A license has to be agreed to first. -/
  | licenseRequired
deriving DecidableEq

namespace ReadAccess

/-- Whether reading is allowed. -/
def isGranted : ReadAccess → Bool
  | granted => true
  | denied | licenseRequired => false

/-- The answer of a policy that only says yes or no. -/
def ofBool (allowed : Bool) : ReadAccess := if allowed then granted else denied

/-- The name of an answer. -/
def label : ReadAccess → String
  | granted => "Granted"
  | denied => "Denied"
  | licenseRequired => "LicenseRequired"

end ReadAccess

/-- The rights of the current caller. -/
structure Policy where
  readAccess : Bitstream → ReadAccess
  isAdmin : Bool := false

namespace Policy

/-- Everybody may do everything. -/
def unrestricted : Policy := ⟨fun _ => .granted, true⟩

/-- Bitstreams are named that are denied, or wait for a license; a denial
comes first. -/
def listed (denied licensed : List BitstreamId) (isAdmin : Bool) : Policy where
  readAccess b :=
    if b.id ∈ denied then .denied
    else if b.id ∈ licensed then .licenseRequired
    else .granted
  isAdmin := isAdmin

end Policy

/-- A policy behind the master switch. -/
structure Gate where
  enabled : Bool
  policy : Policy

namespace Gate

/-- Whether the caller may see a preview of the bitstream. -/
def canPreview (gate : Gate) (b : Bitstream) : Bool :=
  gate.enabled && (gate.policy.readAccess b).isGranted

/-- Whether the caller may read the bitstream, whatever the switch says. -/
def hasReadAccess (gate : Gate) (b : Bitstream) : Bool := (gate.policy.readAccess b).isGranted

/-- Whether the caller may delete previews. -/
def isAdmin (gate : Gate) : Bool := gate.policy.isAdmin

end Gate

/-! ## Preview URLs

The address at which a bitstream can be read.  It names the item by its
handle if it has one, else by its identifier, and the bitstream itself where
no item is given; the file name follows in percent encoding, then the position
and whether reading is allowed.
-/

/-- How a URL names the owner of a bitstream.  An empty handle is still a
handle. -/
def ownerSegment (item : Option ItemRef) (b : Bitstream) : String :=
  match item with
  | some ⟨_, some handle⟩ => "handle/" ++ handle
  | some ⟨id, none⟩ => "item/" ++ id
  | none => "id/" ++ b.id

/-- The part of a URL that does not depend on file name, position and rights. -/
def urlStem (item : Option ItemRef) (b : Bitstream) (base : String) : String :=
  String.ofList (Text.dropTrailing '/' base.toList) ++ "/api/core/bitstreams/"
    ++ ownerSegment item b

/-- The file name as a segment of a URL, or nothing where there is no name. -/
def nameSegment (name : Option String) : String :=
  match name with
  | some name => "/" ++ String.ofList (Text.Percent.encode name)
  | none => ""

/-- The text of a position. -/
def sequenceText (sequenceId : Int32) : String :=
  match sequenceId.toInt with
  | .ofNat n => Text.decimal n
  | .negSucc n => "-" ++ Text.decimal (n + 1)

/-- The query of a URL. -/
def urlQuery (sequenceId : Int32) (allowed : Bool) : String :=
  "?sequence=" ++ sequenceText sequenceId ++ "&isAllowed=" ++ if allowed then "y" else "n"

/-- The address at which a bitstream can be read. -/
def previewUrl (item : Option ItemRef) (b : Bitstream) (base : String) (allowed : Bool) : String :=
  urlStem item b base ++ nameSegment b.name ++ urlQuery b.sequenceId allowed

end ContentPreview
