import ContentPreview.CommandLine.Run

/-!
# The program

The command line on the file system of the machine: paths are looked up, files
read and texts printed here, and nothing is decided.

The walk through a folder visits its entries in the order of their names,
takes no symbolic links, and leaves out the content of files whose preview a
sweep would not store.
-/

namespace ContentPreview.CommandLine

/-- The content of a file; nothing if it cannot be read. -/
def openFile (path : String) : IO (Option Stream) := do
  try return some (.ofBytes (← IO.FS.readBinFile path).toList)
  catch _ => return none

/-- The content of a file that a sweep meets. -/
def sweptContent (path name : String) : IO Stream := do
  if (Kind.ofMime (guessMime name)).isPersistable then
    return (← openFile path).getD (.unreadable "cannot be opened")
  else return .ofBytes []

/-- The entries of a folder in the order of their names; none if it cannot be
read. -/
def entriesOf (path : String) : IO (List IO.FS.DirEntry) := do
  try
    let entries ← (← IO.FS.realPath path).readDir
    return entries.toList.mergeSort fun a b => a.fileName ≤ b.fileName
  catch _ => return []

/-- The tree of a folder. -/
partial def walkFolder (path : String) : IO FileTree := do
  let entries ← (← entriesOf path).filterMapM fun entry => do
    let name := entry.fileName
    let below := entry.path.toString
    match (← entry.path.symlinkMetadata).type with
    | .file => return some (name, FileTree.file (← sweptContent below name))
    | .dir => return some (name, ← walkFolder below)
    | .symlink | .other => return none
  return .folder entries

/-- The place under a canonical path. -/
def placeAt (path : String) : IO (Place IO) := do
  match (← (← IO.FS.realPath path).metadata).type with
  | .file => return ⟨path, .file (openFile path)⟩
  | .dir => return ⟨path, .folder (walkFolder path)⟩
  | .symlink | .other => return ⟨path, .special⟩

/-- The file system of the machine. -/
def machine : Host IO := fun path => do
  try return some (← placeAt (← IO.FS.realPath path).toString)
  catch _ => return none

end ContentPreview.CommandLine

open ContentPreview.CommandLine in
/-- Runs the command line; the exit code is that of its ending. -/
def main (words : List String) : IO UInt32 := do
  let ending ← run machine words
  IO.eprint ending.stderr
  IO.print ending.stdout
  match ending.exit with
  | .success => return 0
  | .failure message =>
    IO.eprintln ("Error: " ++ message)
    return 1
  | .misuse =>
    IO.eprintln "error: the arguments make no sense; for more information, try '--help'"
    return 2
