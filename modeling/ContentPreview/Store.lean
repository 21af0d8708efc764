import ContentPreview.Tree.Stored

/-!
# Preview stores

Where previews are kept.  A store holds at most one list of roots per
bitstream: the first insertion is kept, later ones are answered with what is
already there.  An empty list of roots is never kept, so a bitstream has a
preview exactly when it has at least one root.

A store is any type of states with five operations, each of which may fail;
a failing operation may still have changed the state.  Two are given here: the
store in memory, which never fails, and the same store with operations that
fail at chosen calls.

## Main definitions

* `StoreError` — a failure inside a store.
* `Store` — the five operations.
* `Memory` — the store in memory.
* `Unreliable` — a store in memory whose operations can fail.
-/

namespace ContentPreview

/-- A failure inside a preview store. -/
structure StoreError where
  message : String
  /-- The text of the failure underneath, if there is one. -/
  cause : Option String := none
deriving DecidableEq

/-- The wording of a store failure. -/
def StoreError.text (e : StoreError) : String := "Preview store error: " ++ e.message

/-- What came of an insertion. -/
inductive InsertOutcome where
  | inserted
  /-- A preview was stored before; these are its roots. -/
  | alreadyPresent (existing : List StoredNode)

/-- Computations over a store state that can fail. -/
abbrev StoreM (σ : Type) := ExceptT StoreError (StateM σ)

/-- The operations of a preview store with states in `σ`. -/
class Store (σ : Type) where
  /-- An identity that was never handed out before. -/
  nextId : StoreM σ Nat
  /-- Keeps a tree unless the bitstream has one. -/
  insertTree : BitstreamId → List StoredNode → StoreM σ InsertOutcome
  hasPreview : BitstreamId → StoreM σ Bool
  findRoots : BitstreamId → StoreM σ (List StoredNode)
  /-- Removes the tree of a bitstream and says how many nodes it had. -/
  deleteTree : BitstreamId → StoreM σ Nat

/-! ## The store in memory -/

/-- Stored trees in the order of their insertion, and the next identity. -/
structure Memory where
  trees : List (BitstreamId × List StoredNode) := []
  nextId : Nat := 1

namespace Memory

/-- The roots stored for a bitstream; none if nothing is stored. -/
def roots (m : Memory) (b : BitstreamId) : List StoredNode := (m.trees.lookup b).getD []

/-- Whether something is stored for a bitstream. -/
def has (m : Memory) (b : BitstreamId) : Bool := (m.trees.lookup b).isSome

/-- The memory after an identity was handed out. -/
def advance (m : Memory) : Memory := { m with nextId := m.nextId + 1 }

/-- What an insertion answers. -/
def insertAnswer (m : Memory) (b : BitstreamId) (roots : List StoredNode) : InsertOutcome :=
  if roots.isEmpty then .inserted
  else
    match m.trees.lookup b with
    | some existing => .alreadyPresent existing
    | none => .inserted

/-- The memory after an insertion. -/
def insert (m : Memory) (b : BitstreamId) (roots : List StoredNode) : Memory :=
  if roots.isEmpty || m.has b then m else { m with trees := m.trees ++ [(b, roots)] }

/-- The memory without the tree of a bitstream. -/
def erase (m : Memory) (b : BitstreamId) : Memory :=
  { m with trees := m.trees.filter (·.1 != b) }

/-- The first stored node with an identity. -/
def findNode? (m : Memory) (id : Nat) : Option StoredNode :=
  m.trees.findSome? fun (_, roots) => roots.findSome? (StoredNode.find? id)

/-- The number of bitstreams with a stored tree. -/
def size (m : Memory) : Nat := m.trees.length

/-- The number of nodes of all stored trees. -/
def nodeCount (m : Memory) : Nat :=
  m.trees.foldr (fun (_, roots) sum => StoredNode.totalNodes roots + sum) 0

/-- Whether the bytes of one text come before those of another; the order of
code points is the same. -/
def precedes (a b : BitstreamId) : Bool := a ≤ b

/-- The bitstreams with a stored tree, sorted. -/
def bitstreams (m : Memory) : List BitstreamId := (m.trees.map Prod.fst).mergeSort precedes

end Memory

instance : Store Memory where
  nextId := do
    let m ← get
    set m.advance
    return m.nextId
  insertTree b roots := do
    let m ← get
    set (m.insert b roots)
    return m.insertAnswer b roots
  hasPreview b := do return (← get).has b
  findRoots b := do return (← get).roots b
  deleteTree b := do
    let m ← get
    set (m.erase b)
    return StoredNode.totalNodes (m.roots b)

/-! ## A store that fails -/

/-- The operations of a store, for saying which of them fail. -/
inductive StoreOperation where
  | nextId
  | insertTree
  | hasPreview
  | findRoots
  | deleteTree
deriving DecidableEq

/-- The name of an operation in the message of its failure. -/
def StoreOperation.label : StoreOperation → String
  | nextId => "next_id"
  | insertTree => "insert_tree"
  | hasPreview => "has_preview"
  | findRoots => "find_roots"
  | deleteTree => "delete_tree"

/-- How a store departs from the one in memory. -/
structure Faults where
  /-- Whether the operation fails when it is the call of that number. -/
  fails : StoreOperation → Nat → Bool := fun _ _ => false
  /-- Whether existing previews are overlooked when asked for. -/
  overlooks : Bool := false

/-- A store in memory whose operations can fail. -/
structure Unreliable where
  memory : Memory := {}
  /-- The number of calls so far. -/
  calls : Nat := 0
  faults : Faults := {}

namespace Unreliable

/-- Counts a call, which fails if the faults say so. -/
def attempt (operation : StoreOperation) : StoreM Unreliable Unit := do
  let s ← get
  set { s with calls := s.calls + 1 }
  if s.faults.fails operation s.calls then
    throw { message := operation.label ++ " failed" }

/-- Runs an operation on the memory of the store. -/
def onMemory {α : Type} (action : StoreM Memory α) : StoreM Unreliable α := do
  let s ← get
  let (answer, memory) := action.run s.memory
  set { s with memory }
  liftExcept answer
where
  /-- The outcome of a finished operation. -/
  liftExcept : Except StoreError α → StoreM Unreliable α
    | .ok a => pure a
    | .error e => throw e

end Unreliable

instance : Store Unreliable where
  nextId := do
    Unreliable.attempt .nextId
    Unreliable.onMemory Store.nextId
  insertTree b roots := do
    Unreliable.attempt .insertTree
    Unreliable.onMemory (Store.insertTree b roots)
  hasPreview b := do
    Unreliable.attempt .hasPreview
    if (← get).faults.overlooks then return false
    Unreliable.onMemory (Store.hasPreview b)
  findRoots b := do
    Unreliable.attempt .findRoots
    Unreliable.onMemory (Store.findRoots b)
  deleteTree b := do
    Unreliable.attempt .deleteTree
    Unreliable.onMemory (Store.deleteTree b)

end ContentPreview
