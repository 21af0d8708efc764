/-!
# Byte streams and scratch files

Content as it is delivered, and the files that it is copied to where random
access is needed.

## Main definitions

* `Stream` — the pieces to come and whether the stream breaks after them.
* `Stream.readAtMost`, `Stream.readAll` — reading up to a bound, and to the
  end.
* `ScratchSpace` — which operations on scratch files fail, and how.
* `Ledger` — the files created and the files alive.
* `withScratchFile` — a computation with a scratch file that is released
  afterwards, whatever came of the computation.
-/

namespace ContentPreview

/-! ## Byte streams

Content is delivered piece by piece, until the stream ends or breaks.  How it
is divided into pieces is up to the deliverer; nothing but the length of a
single read may depend on it.
-/

/-- Content as it is delivered. -/
structure Stream where
  /-- What single reads deliver, in order. -/
  pieces : List (List UInt8)
  /-- Why reading fails after the last piece; nothing for a stream that ends. -/
  failure : Option String := none

namespace Stream

/-- The stream that delivers all bytes at once and then ends. -/
def ofBytes (bytes : List UInt8) : Stream := ⟨[bytes], none⟩

/-- The stream whose first read fails. -/
def unreadable (reason : String) : Stream := ⟨[], some reason⟩

/-- All bytes that a stream delivers. -/
def bytes (s : Stream) : List UInt8 := s.pieces.flatten

/-- Reads pieces until `limit` bytes are there or the pieces run out. -/
def collect (failure : Option String) : Nat → List (List UInt8) → Except String (List UInt8)
  | 0, _ => .ok []
  | _ + 1, [] =>
    match failure with
    | some reason => .error reason
    | none => .ok []
  | limit + 1, piece :: rest =>
    match collect failure (limit + 1 - piece.length) rest with
    | .ok more => .ok (piece.take (limit + 1) ++ more)
    | .error reason => .error reason

/-- The first `limit` bytes, or all if there are fewer.  A stream that breaks
before the bound is a failure; what comes after the bound is never asked
for. -/
def readAtMost (limit : Nat) (s : Stream) : Except String (List UInt8) :=
  collect s.failure limit s.pieces

/-- All bytes, unless the stream breaks. -/
def readAll (s : Stream) : Except String (List UInt8) :=
  match s.failure with
  | some reason => .error reason
  | none => .ok s.bytes

end Stream

/-! ## Scratch files

A scratch space hands out files; creating one, writing to it and moving about
in it can each fail, writing when some bytes are in it already, and the file as
a whole once it was rewound.  The ledger counts the files that were created and
those that still exist.
-/

/-- How a scratch space fails; nothing where it does not. -/
structure ScratchSpace where
  createFailure : Option String := none
  /-- How writing fails when there is no room left. -/
  writeFailure : Option String := none
  /-- How going back to the start of the file fails. -/
  seekFailure : Option String := none
  /-- The number of bytes that go into a file before writing fails. -/
  room : Nat := 0
  /-- Whether the file fails only after it was rewound, while it is read. -/
  failsLater : Bool := false

/-- The number of scratch files. -/
structure Ledger where
  created : Nat := 0
  live : Nat := 0
deriving DecidableEq

namespace Ledger

/-- The ledger with one file more. -/
def acquire (l : Ledger) : Ledger := ⟨l.created + 1, l.live + 1⟩

/-- The ledger after one file was released. -/
def release (l : Ledger) : Ledger := ⟨l.created, l.live - 1⟩

end Ledger

/-- Computations that may use scratch files. -/
abbrev ScratchM := StateM Ledger

/-- Runs a computation while a scratch file exists. -/
def withScratchFile {α : Type} (body : ScratchM α) : ScratchM α := do
  modify Ledger.acquire
  let answer ← body
  modify Ledger.release
  return answer

end ContentPreview
