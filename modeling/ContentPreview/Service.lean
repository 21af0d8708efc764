import ContentPreview.Archive.Extraction
import ContentPreview.Bitstream
import ContentPreview.Config
import ContentPreview.Source
import ContentPreview.Store
import ContentPreview.Text.Encoding
import ContentPreview.Tree.Materialize

/-!
# The preview service

Generating previews and keeping them.  Every operation first asks the gate,
then the store; content is opened only when a preview has to be made.  A
preview that is not empty and of a kind that may be kept goes into the store,
and if the store holds one by then, that one counts.

Content that cannot be opened, read or listed has the empty preview.  Content
that is declared as text although its file name is that of an archive is an
error.

The state of a service is its store, the number of times that it opened
content, and the ledger of its scratch files.

## Main definitions

* `PreviewError` — what an operation reports instead of an answer.
* `Service` — the fixed part of a service.
* `Service.generate` — the preview of a stream.
* `Service.getOrGenerate` — the preview to show for a bitstream.
* `Service.ensure` — make sure that a preview is stored.
* `Service.storedPreview`, `Service.delete` — the stored preview alone.
-/

namespace ContentPreview

/-! ## Errors -/

/-- What a service operation can report instead of an answer. -/
inductive PreviewError where
  /-- Content declared as text has the file name of an archive. -/
  | mislabelled (name mime : String)
  /-- The store failed. -/
  | store (error : StoreError)
  /-- Only an administrator may delete previews. -/
  | forbidden (bitstream : BitstreamId)
  /-- The service was given settings that it refuses. -/
  | invalidConfig (message : String)
deriving DecidableEq

namespace PreviewError

/-- The wording of an error.  A store failure is shown as the store words
it. -/
def message : PreviewError → String
  | mislabelled name mime =>
    "Bitstream '" ++ name ++ "' is declared as " ++ mime ++ " but has an archive extension"
  | store e => e.text
  | forbidden id => "Administrator rights required to delete previews of bitstream " ++ id
  | invalidConfig message => "Invalid configuration: " ++ message

/-- Whether an error comes from the store. -/
def isStoreFailure : PreviewError → Bool
  | store _ => true
  | _ => false

/-- The text of the failure underneath an error. -/
def cause : PreviewError → Option String
  | store e => e.cause
  | _ => none

end PreviewError

/-! ## Services and their states -/

/-- What became of a bitstream whose preview was to be stored. -/
inductive Outcome where
  /-- The gate does not admit the caller. -/
  | denied
  /-- A preview was stored before. -/
  | existing
  /-- A preview was generated and stored. -/
  | stored (nodes : Nat)
  /-- Previews of this kind are never stored. -/
  | transient
  /-- There is nothing to show. -/
  | empty
deriving DecidableEq

/-- The state of a service over a store. -/
structure ServiceState (σ : Type) where
  store : σ
  /-- The number of times that content was opened or could not be. -/
  opens : Nat := 0
  scratch : Ledger := {}

/-- Computations of a service over a store. -/
abbrev ServiceM (σ : Type) := ExceptT PreviewError (StateM (ServiceState σ))

/-- The fixed part of a service. -/
structure Service where
  config : Config
  policy : Policy
  extractor : Extractor := {}

namespace Service

/-- The service with the given settings, unless they are to be refused. -/
def create (config : Config) (policy : Policy) (extractor : Extractor) :
    Except PreviewError Service :=
  match config.checked with
  | .ok config => .ok ⟨config, policy, extractor⟩
  | .error fault => .error (.invalidConfig fault.message)

/-- The policy behind the master switch. -/
def gate (svc : Service) : Gate := ⟨svc.config.previewEnabled, svc.policy⟩

/-- Whether the caller may see a preview of the bitstream. -/
def canPreview (svc : Service) (b : Bitstream) : Bool := svc.gate.canPreview b

/-- The address of a bitstream for the caller. -/
def url (svc : Service) (item : Option ItemRef) (b : Bitstream) (base : String) : String :=
  previewUrl item b base (svc.gate.hasReadAccess b)

/-! ## Generation -/

/-- The longest encoding of a character in bytes. -/
def maxCharBytes : UInt64 := 4

/-- The product of two words, or the largest word if the product is larger. -/
def saturatingMul (a b : UInt64) : UInt64 :=
  UInt64.ofNat (min (a.toNat * b.toNat) (Text.wordBound - 1))

/-- How many bytes of a text are read: enough for one character more than can
be shown, as far as a word can count them.  The sum is one of words, so the
largest bound of all gives no bytes. -/
def byteLimit (svc : Service) : UInt64 :=
  saturatingMul (UInt64.ofNat svc.config.maxContentLength + 1) maxCharBytes

/-- The preview of a text that was read. -/
def textNode (b : Bitstream) (content : String) : List View := [View.text b.nameOrEmpty content]

/-- The bounded preview of a plain text. -/
def plainTextPreview (svc : Service) (b : Bitstream) (s : Stream) : List View :=
  match s.readAtMost svc.byteLimit.toNat with
  | .ok bytes =>
    textNode b (truncateText svc.config.maxContentLength (Text.Utf8.decodeLossy bytes))
  | .error _ => []

/-- The full text of an HTML page. -/
def htmlPreview (b : Bitstream) (s : Stream) : List View :=
  match s.readAll with
  | .ok bytes => textNode b (Text.Utf8.decodeLossy bytes)
  | .error _ => []

/-- The bounded file tree of an archive. -/
def archivePreview (svc : Service) (format : ArchiveFormat) (s : Stream) :
    ScratchM (List View) := do
  let records ← extract svc.extractor format s
  return materialize (limitLeaves svc.config.maxLeafCount records)

/-- The preview of a stream as content of a bitstream. -/
def generate (svc : Service) (b : Bitstream) (s : Stream) :
    ScratchM (Except PreviewError (List View)) :=
  match b.kind with
  | .zipArchive => return .ok (← svc.archivePreview .zip s)
  | .tarArchive compression => return .ok (← svc.archivePreview (.tar compression) s)
  | .plainText =>
    return if hasArchiveExtension b.nameOrEmpty then .error (.mislabelled b.nameOrEmpty b.mimeType)
      else .ok (svc.plainTextPreview b s)
  | .html => return .ok (htmlPreview b s)
  | .unsupported => return .ok []

/-! ## Operations on the state -/

section

variable {σ : Type}

/-- Runs an operation of the store. -/
def onStore {α : Type} (action : StoreM σ α) : ServiceM σ α := do
  let s ← get
  let (answer, store) := action.run s.store
  set { s with store }
  match answer with
  | .ok a => return a
  | .error e => throw (.store e)

/-- Runs a computation that may use scratch files. -/
def onScratch {α : Type} (action : ScratchM (Except PreviewError α)) : ServiceM σ α := do
  let s ← get
  let (answer, scratch) := action.run s.scratch
  set { s with scratch }
  match answer with
  | .ok a => return a
  | .error e => throw e

/-- Opens the content of a bitstream. -/
def openContent (source : Source) (b : Bitstream) : ServiceM σ (Option Stream) := do
  modify fun s => { s with opens := s.opens + 1 }
  return source.content? b

/-- The preview of what a source holds for a bitstream.  Content of an
unsupported kind is not opened. -/
def generateFrom (svc : Service) (source : Source) (b : Bitstream) : ServiceM σ (List View) := do
  if b.kind = .unsupported then return []
  match ← openContent source b with
  | some s => onScratch (svc.generate b s)
  | none => return []

variable [Store σ]

/-- The preview that is stored for an identifier. -/
def storedPreview (id : BitstreamId) : ServiceM σ (List View) := do
  return (← onStore (Store.findRoots id)).map StoredNode.toView

/-- Stores the trees of a preview. -/
def persist (id : BitstreamId) (roots : List View) : ServiceM σ InsertOutcome := do
  let stored ← onStore (roots.mapM (View.toStored Store.nextId id))
  onStore (Store.insertTree id stored)

/-- The preview to show for a bitstream: the stored one, or a new one if the
settings allow that. -/
def getOrGenerate (svc : Service) (source : Source) (b : Bitstream) : ServiceM σ (List View) := do
  if !svc.canPreview b then return []
  if ← onStore (Store.hasPreview b.id) then storedPreview b.id
  else if !svc.config.generateOnPageLoad then return []
  else
    let roots ← svc.generateFrom source b
    if roots.isEmpty || !b.kind.isPersistable then return roots
    match ← persist b.id roots with
    | .inserted => return roots
    | .alreadyPresent existing => return existing.map StoredNode.toView

/-- Makes sure that a preview of the bitstream is stored, if it can have one. -/
def ensure (svc : Service) (source : Source) (b : Bitstream) : ServiceM σ Outcome := do
  if !svc.canPreview b then return .denied
  if ← onStore (Store.hasPreview b.id) then return .existing
  if b.kind = .unsupported then return .empty
  if !b.kind.isPersistable then return .transient
  let roots ← svc.generateFrom source b
  if roots.isEmpty then return .empty
  match ← persist b.id roots with
  | .inserted => return .stored (View.totalNodes roots)
  | .alreadyPresent _ => return .existing

/-- Deletes the stored preview of an identifier and says how many nodes it
had. -/
def delete (svc : Service) (id : BitstreamId) : ServiceM σ Nat := do
  if !svc.gate.isAdmin then throw (.forbidden id)
  onStore (Store.deleteTree id)

end

end Service

end ContentPreview
