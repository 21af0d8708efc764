import ContentPreview.Archive.Extraction
import ContentPreview.CommandLine.Arguments
import ContentPreview.CommandLine.Display
import ContentPreview.FileTree
import ContentPreview.Kind
import ContentPreview.Toml.Reader

/-!
# Running the command line

What the program does on a host with the words of a command line.

Settings are read before anything else.  They come from a settings file, if
one is named, and the bounds of the command line go before those of the file.

`show` makes the preview of one file as a page would show it, whatever the
settings say about page loads.  With `--flat` it lists the records of an
archive instead, and then a damaged archive is a failure and not an empty
preview.  `sweep` stores the previews of all files of a folder in a fresh
store and reports what became of them.

## Main definitions

* `Host` — the look-up of paths.
* `FileTree.host` — a file tree as the working directory of a host.
* `Ending` — what a run prints and how it ends.
* `run` — a run on a host.
-/

namespace ContentPreview

namespace CommandLine

/-! ## Hosts

A host is the file system as the command line sees it.  It looks up paths; what
it finds is a place with its canonical path, and from there the content of a
file or the tree of a folder can be asked for.

A host answers with effects, so that a program can be run on the file system of
a machine as well as on a tree that is given as a value.
-/

/-- What is at a place of a file system. -/
inductive Entry (m : Type → Type) where
  /-- A file, with the way to open it. -/
  | file (open? : m (Option Stream))
  /-- A folder, with the way to walk through it. -/
  | folder (walk : m FileTree)
  /-- Something else. -/
  | special

/-- A place of a file system under its canonical path. -/
structure Place (m : Type → Type) where
  path : String
  entry : Entry m

/-- The name of a place: the last step of its path. -/
def Place.name {m : Type → Type} (place : Place m) : String :=
  (FileTree.steps place.path).getLastD ""

/-- The place that a path leads to, if there is one. -/
abbrev Host (m : Type → Type) := String → m (Option (Place m))

end CommandLine

open CommandLine in
/-- What was found in a tree whose folder has the given path, as a place. -/
def FileTree.Found.place (root : String) (found : Found) : Place Id where
  path := "/".intercalate (root :: found.names)
  entry := match found.tree with
    | file content => .file (some content)
    | folder entries => .folder (folder entries)

open CommandLine in
/-- The host whose working directory is a tree under the given path, and on
which there is nothing else. -/
def FileTree.host (root : String) (tree : FileTree) : Host Id := fun path =>
  if path = "" ∨ path.toList.head? = some '/' then none
  else (tree.find? path).map (Found.place root)

end ContentPreview

namespace ContentPreview.CommandLine

/-! ## How a run ends -/

/-- How a run ends. -/
inductive Exit where
  | success
  | failure (message : String)
  /-- The words of the command line make no sense. -/
  | misuse

/-- What a run prints and how it ends. -/
structure Ending where
  exit : Exit := .success
  stdout : String := ""
  stderr : String := ""

/-- Why a run fails, and what it has said about its progress before. -/
structure Failure where
  message : String
  progress : String := ""

variable {m : Type → Type} [Monad m]

/-! ## Settings -/

/-- The text of the file under a path; nothing if there is none or it cannot be
read. -/
def textOf? (host : Host m) (path : String) : m (Option String) := do
  match ← host path with
  | some ⟨_, .file open?⟩ =>
    match (← open?).map Stream.readAll with
    | some (.ok bytes) => return Text.Utf8.decodeStrict bytes
    | _ => return none
  | _ => return none

/-- The settings in the file under a path. -/
def readConfig (host : Host m) (path : String) : ExceptT Failure m Config := do
  match ← (textOf? host path : m (Option String)) with
  | none => throw { message := "Cannot read config " ++ path }
  | some text =>
    match (Toml.read text).bind Config.ofToml? with
    | none => throw { message := "Invalid config " ++ path }
    | some config => return config

/-- Settings with the bounds that the command line gives. -/
def Globals.override (g : Globals) (config : Config) : Config :=
  { config with
    maxLeafCount := g.maxFiles.getD config.maxLeafCount
    maxContentLength := g.maxChars.getD config.maxContentLength }

/-- The settings of a run. -/
def settings (host : Host m) (g : Globals) : ExceptT Failure m Config := do
  match g.config with
  | none => return g.override {}
  | some path => return g.override (← readConfig host path)

/-! ## Previews -/

/-- The service of a run, which admits everyone. -/
def serviceFor (config : Config) : Except PreviewError Service :=
  Service.create config .unrestricted {}

/-- The records that the flat listing of an archive shows. -/
def flatRecords (config : Config) (format : ArchiveFormat) (s : Stream) :
    Except ExtractionError (List Record) :=
  ((tryExtract {} format s).run {}).1.map (limitLeaves config.maxLeafCount)

/-- The flat listing of a file. -/
def showFlat (config : Config) (path : String) (b : Bitstream) (open? : m (Option Stream)) :
    ExceptT Failure m Ending := do
  if let some fault := config.fault? then
    throw { message := (PreviewError.invalidConfig fault.message).message }
  match b.kind.archiveFormat with
  | none => throw { message := path ++ " is not an archive (" ++ b.mimeType ++ ")" }
  | some format =>
    match ← open? with
    | none => throw { message := "Cannot open file" }
    | some s =>
      match flatRecords config format s with
      | .error _ => throw { message := "Archive listing failed" }
      | .ok records => return { stdout := flatListing records }

/-- The preview that a page shows of the content of a bitstream. -/
def pagePreview (svc : Service) (b : Bitstream) (content : Option Stream) :
    Except PreviewError (List View) :=
  let start : ServiceState Memory := { store := {} }
  ((svc.getOrGenerate ⟨fun _ => content⟩ b).run start).1

/-- The display of a preview in the given layout. -/
def displayPreview (asJson : Bool) (path : String) (b : Bitstream) (roots : List View) : Ending :=
  if asJson then { stdout := jsonText roots }
  else if roots.isEmpty then
    { stderr := lines ["No preview available for " ++ path ++ " (" ++ b.mimeType ++ ")"] }
  else if b.kind.isArchive then { stdout := outline path roots }
  else { stdout := plainTexts roots }

/-- The preview of a file. -/
def showPreview (config : Config) (asJson : Bool) (path : String) (b : Bitstream)
    (open? : m (Option Stream)) : ExceptT Failure m Ending := do
  match serviceFor { config with generateOnPageLoad := true } with
  | .error e => throw { message := e.message }
  | .ok svc =>
    if !svc.canPreview b then
      throw { message := "Previews are disabled by configuration" }
    let content ← if b.kind = .unsupported then pure none else open?
    match pagePreview svc b content with
    | .error e => throw { message := e.message }
    | .ok roots => return displayPreview asJson path b roots

/-- Shows the file under a path. -/
def runShow (host : Host m) (config : Config) (path : String) (mime : Option String)
    (layout : Layout) : ExceptT Failure m Ending := do
  match ← host path with
  | none => throw { message := "Invalid path" }
  | some place =>
    match place.entry with
    | .file open? =>
      let name := place.name
      let b : Bitstream := ⟨name, some name, mime.getD (guessMime name), 1⟩
      match layout with
      | .flat => showFlat config place.path b open?
      | .json => showPreview config true place.path b open?
      | .tree => showPreview config false place.path b open?
    | .folder _ | .special => throw { message := place.path ++ " is not a regular file" }

/-! ## Sweeps -/

/-- The greatest position that a bitstream can have. -/
def maxSequence : Nat := Int32.maxValue.toNatClampNeg

/-- The file at a path of a tree as a bitstream; the count starts at zero. -/
def bitstreamAt (path : String) (index : Nat) : Bitstream :=
  let name := (FileTree.steps path).getLastD ""
  ⟨path, some name, guessMime name, Int32.ofNat (min (index + 1) maxSequence)⟩

/-- The files of a tree as bitstreams whose identifiers are their paths. -/
def bitstreamsOf (tree : FileTree) : List Bitstream :=
  tree.files.zipIdx.map fun ((path, _), index) => bitstreamAt path index

/-- The report of a sweep over a tree with a fresh store, and the number of
nodes in the store afterwards. -/
def sweepTree (svc : Service) (tree : FileTree) : SweepReport × Nat :=
  let start : ServiceState Memory := { store := {} }
  let ((report, _), final) := (svc.sweep (.ofDirectory tree) (bitstreamsOf tree)).run start
  (report, final.store.nodeCount)

/-- Sweeps the folder under a path. -/
def runSweep (host : Host m) (config : Config) (path : String) (asJson : Bool) :
    ExceptT Failure m Ending := do
  match ← host path with
  | none => throw { message := "Invalid path" }
  | some place =>
    match place.entry with
    | .folder walk =>
      let stderr := lines ["Sweeping " ++ place.path ++ "..."]
      match serviceFor config with
      | .error e => throw { message := e.message, progress := stderr }
      | .ok svc =>
        let (report, storedNodes) := sweepTree svc (← walk)
        let stdout := if asJson then jsonReport report else summary report storedNodes
        return { stdout, stderr }
    | .file _ | .special => throw { message := place.path ++ " is not a directory" }

/-! ## Runs -/

/-- The name of the program and its version. -/
def versionText : String := lines ["bitpreview 0.1.0"]

/-- How the program is used. -/
def helpText : String :=
  lines ["Bounded previews and file trees for text, HTML, ZIP and TAR files", "",
    "Usage: bitpreview [OPTIONS] show [--mime MIME] [--json | --flat] FILE",
    "       bitpreview [OPTIONS] sweep [--json] [DIR]", "",
    "Options:",
    "  -c, --config FILE      Preview configuration file (TOML)",
    "      --max-files COUNT  Maximum number of archive files listed individually",
    "      --max-chars COUNT  Maximum plain-text preview length in characters",
    "  -v, --verbose          Increase log verbosity",
    "  -h, --help             Print help",
    "  -V, --version          Print version"]

/-- What an invocation does on a host. -/
def Invocation.run (host : Host m) (invocation : Invocation) : ExceptT Failure m Ending := do
  let config ← settings host invocation.globals
  match invocation.command with
  | .show file mime layout => runShow host config file mime layout
  | .sweep directory asJson => runSweep host config directory asJson

/-- The end of a run that failed. -/
def Failure.ending (f : Failure) : Ending := { exit := .failure f.message, stderr := f.progress }

/-- A run on a host with the words of a command line. -/
def run (host : Host m) (words : List String) : m Ending := do
  match Invocation.parse words with
  | .error .usage => return { exit := .misuse }
  | .error .version => return { stdout := versionText }
  | .error .help => return { stdout := helpText }
  | .ok invocation =>
    match ← (invocation.run host).run with
    | .ok ending => return ending
    | .error f => return f.ending

end ContentPreview.CommandLine
