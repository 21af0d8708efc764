import ContentPreview.Keyed
import ContentPreview.Stream

/-!
# File trees

A directory of files as a value: what a program finds when it looks at a part
of a file system that does not change meanwhile.

A path leads from a folder through its entries, from left to right.  Empty
steps and `.` stay where they are, and `..` goes back, but all of them only in
a folder: a step below a file leads nowhere, and neither does one that leaves
the tree.

## Main definitions

* `FileTree` — files and folders.
* `FileTree.find?` — what a path leads to.
* `FileTree.content?` — the content under a path.
* `FileTree.files` — all files under their paths.
-/

namespace ContentPreview

/-- A file or a folder with named entries. -/
inductive FileTree where
  | file (content : Stream)
  | folder (entries : List (String × FileTree))

namespace FileTree

/-- The folder without entries. -/
def empty : FileTree := folder []

/-- The steps of a path. -/
def steps (path : String) : List String := (path.toList.splitOn '/').map String.ofList

/-- Something in a tree with the names that lead to it. -/
structure Found where
  names : List String
  tree : FileTree

/-- What the steps of a path lead to from a subtree.  The trail holds the
folders on the way there, innermost first, each with the name of the entry
that was taken in it. -/
def follow? : List String → List (String × FileTree) → FileTree → Option Found
  | [], trail, tree => some ⟨(trail.map Prod.fst).reverse, tree⟩
  | step :: rest, trail, tree =>
    match tree with
    | file _ => none
    | folder entries =>
      if step = "" ∨ step = "." then follow? rest trail tree
      else if step = ".." then
        match trail with
        | [] => none
        | (_, parent) :: outer => follow? rest outer parent
      else
        match entries.lookup step with
        | some next => follow? rest ((step, tree) :: trail) next
        | none => none

/-- What a path leads to. -/
def find? (tree : FileTree) (path : String) : Option Found := follow? (steps path) [] tree

/-- The content under a path.  A folder can be opened, but not read. -/
def content? (tree : FileTree) (path : String) : Option Stream :=
  match tree.find? path with
  | some ⟨_, file content⟩ => some content
  | some ⟨_, folder _⟩ => some (.unreadable "Is a directory")
  | none => none

/-- The tree with something put under the steps of a path; folders on the way
are made where they are missing. -/
def put (content : FileTree) : List String → FileTree → FileTree
  | [], _ => content
  | step :: rest, tree =>
    let entries := match tree with
      | folder entries => entries
      | file _ => []
    folder (Keyed.alter step (fun found => put content rest (found.getD empty)) entries)

mutual

/-- The paths of the files of a tree, below a path. -/
def filesBelow (path : String) : FileTree → List (String × Stream)
  | file content => [(path, content)]
  | folder entries => filesOfEntries path entries

/-- The paths of the files of a list of entries, below a path. -/
def filesOfEntries (path : String) : List (String × FileTree) → List (String × Stream)
  | [] => []
  | (name, tree) :: rest =>
    filesBelow (if path = "" then name else path ++ "/" ++ name) tree ++ filesOfEntries path rest

end

/-- The files of a tree under their paths. -/
def files (tree : FileTree) : List (String × Stream) := filesBelow "" tree

end FileTree

end ContentPreview
