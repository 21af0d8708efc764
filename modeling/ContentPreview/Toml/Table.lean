/-!
# Tables of a settings file

What a settings file in the TOML format says, as a tree of tables, and the
rules by which its parts are put together.

A key is defined once.  A table can be named in three ways: by a heading of
its own, by a longer heading of a table below it, and by a dotted key.  One
that was only named by longer headings may still get its own; one that was
named by a dotted key can be extended by dotted keys from the same place only.
A list of tables grows by a heading in double brackets, and whatever is put
below its name belongs to its last table.

Of most values only the presence matters, so they are all alike here.

## Main definitions

* `Node`, `Entries` — the tree.
* `Entries.assign` — puts a value under a dotted key.
* `Entries.openTable`, `Entries.openList` — the headings.
-/

namespace ContentPreview.Toml

/-- How a table came to be. -/
inductive Origin where
  /-- It has a heading of its own, or none is needed. -/
  | heading
  /-- It is only named by longer headings. -/
  | above
  /-- It is named by a dotted key. -/
  | dotted
deriving DecidableEq

/-- What stands under a key. -/
inductive Node where
  | integer (n : Int)
  | boolean (b : Bool)
  /-- A value of another type. -/
  | other
  | table (origin : Origin) (entries : List (String × Node))
  /-- A list of tables, of which only the last one can still change. -/
  | tables (last : List (String × Node))

/-- The keys of a table, in order. -/
abbrev Entries := List (String × Node)

namespace Entries

/-- What stands under a key. -/
def find? (entries : Entries) (key : String) : Option Node := entries.lookup key

/-- The entries with another node under a key that is there. -/
def replace (entries : Entries) (key : String) (node : Node) : Entries :=
  entries.map fun (other, old) => (other, if other = key then node else old)

/-- Goes down a path and changes the table at its end.  Tables that are missing
on the way are made, for a dotted key if `dotted`; a dotted key may not lead
through a table with a heading of its own. -/
def within (dotted : Bool) (change : Origin → Entries → Option Entries) :
    List String → Origin → Entries → Option Entries
  | [], origin, entries => change origin entries
  | key :: path, _, entries =>
    match entries.find? key with
    | none => do
      let origin := if dotted then .dotted else .above
      let inner ← within dotted change path origin []
      return entries ++ [(key, .table origin inner)]
    | some (.table origin inner) =>
      if dotted && origin = .heading then none
      else do
        let inner ← within dotted change path origin inner
        return entries.replace key (.table origin inner)
    | some (.tables last) => do
      let last ← within dotted change path .heading last
      return entries.replace key (.tables last)
    | some _ => none

/-- Puts a value under a new key of the table at the end of a dotted path.  If
there is a path at all, the table has to be one of dotted keys. -/
def assign (path : List String) (key : String) (value : Node) (entries : Entries) :
    Option Entries :=
  entries.within true put path .heading
where
  /-- The table with the new entry. -/
  put (origin : Origin) (entries : Entries) : Option Entries :=
    if (origin = .dotted) = (path = []) ∨ (entries.find? key).isSome then none
    else some (entries ++ [(key, value)])

/-- Opens the table of a heading, which is new or only named by longer
headings so far. -/
def openTable (path : List String) (key : String) (entries : Entries) : Option Entries :=
  entries.within false (fun _ entries => start entries) path .heading
where
  /-- The table above with the opened one. -/
  start (entries : Entries) : Option Entries :=
    match entries.find? key with
    | none => some (entries ++ [(key, .table .heading [])])
    | some (.table .above inner) => some (entries.replace key (.table .heading inner))
    | some _ => none

/-- Opens one more table of a list of tables. -/
def openList (path : List String) (key : String) (entries : Entries) : Option Entries :=
  entries.within false (fun _ entries => start entries) path .heading
where
  /-- The table above with the list. -/
  start (entries : Entries) : Option Entries :=
    match entries.find? key with
    | none => some (entries ++ [(key, .tables [])])
    | some (.tables _) => some (entries.replace key (.tables []))
    | some _ => none

end Entries

end ContentPreview.Toml
