import ContentPreview.Record

/-!
# Members of an archive

What an archive reader delivers: a finite sequence of members that ends
normally or in damage.  The containers describe their members differently.  A
ZIP archive has a directory of names with sizes; a TAR archive has headers,
some of which describe other members, and its names are bytes.

## Main definitions

* `ZipMember`, `TarMember` — a member as its container describes it.
* `Contents` — members in archive order, and how the sequence ends.
* `Contents.answers` — what a reader answers to whoever goes through it.
-/

namespace ContentPreview.Archive

/-- A member as the directory of a ZIP archive describes it. -/
structure ZipMember where
  name : String
  size : UInt64
  isDirectory : Bool
deriving DecidableEq

/-- The types of member that a listing tells apart. -/
inductive MemberType where
  | file
  | directory
  /-- A header that describes another member and is none itself. -/
  | extension
deriving DecidableEq

/-- A member as its header in a TAR archive describes it. -/
structure TarMember where
  /-- The name, in whatever encoding. -/
  rawName : List UInt8
  size : UInt64
  type : MemberType
deriving DecidableEq

/-- The members of an archive in order. -/
structure Contents (μ : Type) where
  members : List μ
  /-- Whether the sequence ends in damage. -/
  isDamaged : Bool

namespace Contents

variable {μ : Type}

/-- An archive without members. -/
def complete : Contents μ := ⟨[], false⟩

/-- An archive that is damaged before its first member. -/
def damaged : Contents μ := ⟨[], true⟩

/-- The archive with one more member in front. -/
def prepend (c : Contents μ) (m : μ) : Contents μ := { c with members := m :: c.members }

/-- What a reader answers when it is asked for one member after the other:
each member in its turn, and at the damage a failure. -/
def answers (c : Contents μ) : List (Option μ) :=
  c.members.map some ++ if c.isDamaged then [none] else []

end Contents

end ContentPreview.Archive
