import ContentPreview.Stream

/-!
# Reading through a decompressor

What a reader gets to see of compressed content, and when.

Decompression is described once and for all as a list of *steps*: pieces of
output, a fault, or the end of the data, each with the number of input bytes
that have to arrive before it can be taken.  When the steps run out, the input
has been cut short.  A decompressor that has no room for its next output has
already used up some of the input for it, up to all that it needs.

Input arrives in buffers.  A read first fetches a new buffer if the last one
is used up, so a broken source fails the read even while output is left; it
then takes the steps that the input at hand allows.  A decompressor with a
*window* works ahead to the next multiple of the window size and keeps what
was not asked for; one without stops at what was asked for.  A fault that is
met on the way fails the read as a whole, including output that came before it
in the same read.

## Main definitions

* `Step` — what decompression does next.
* `Inflow` — a source of bytes, plain or compressed.
* `Inflow.read` — one read.
* `Inflow.take` — reads until enough bytes are there or the data end.
-/

namespace ContentPreview.Archive

/-- What decompression does next.  `need` is the number of input bytes that
have to arrive first. -/
inductive Step where
  /-- Output, with the number of input bytes that are used up while there is
  no room for it. -/
  | output (need held : Nat) (bytes : List UInt8)
  | fault (need : Nat)
  /-- A fault that shows only when there is room for more output. -/
  | lateFault (need : Nat)
  /-- The data end; the check of the trailer, which ends at `close`, has come
  out as `sound`. -/
  | finish (need close : Nat) (sound : Bool)

/-- The number of input bytes that a step needs. -/
def Step.need : Step → Nat
  | output need _ _ => need
  | fault need => need
  | lateFault need => need
  | finish need _ _ => need

/-- The number of input bytes that are used up when a step is next. -/
def Step.held : Step → Nat
  | output _ held _ => held
  | step => step.need

/-- The number of bytes that a step puts out. -/
def Step.size : Step → Nat
  | output _ _ bytes => bytes.length
  | fault _ | lateFault _ | finish _ _ _ => 0

/-- A compressed source of bytes. -/
structure Unpacking where
  /-- The size of the window, or zero for a decompressor without one. -/
  window : Nat
  steps : List Step
  /-- Output that was produced but not yet asked for. -/
  kept : List UInt8 := []
  /-- The number of bytes produced. -/
  produced : Nat := 0
  /-- The number of input bytes that have arrived. -/
  arrived : Nat := 0
  /-- Whether all input that has arrived is used up. -/
  usedUp : Bool := true
  /-- The number of input bytes after each further fetch. -/
  fetches : List Nat
  /-- The number of input bytes in all. -/
  total : Nat
  /-- Whether the source breaks after its last byte. -/
  broken : Bool

namespace Unpacking

/-- The output that `arrived` input bytes allow, at most `room` bytes of it,
and the steps after it. -/
def ready (arrived : Nat) : Nat → List Step → List UInt8 × List Step
  | room, .output need held bytes :: rest =>
    if need ≤ arrived ∧ (room ≠ 0 ∨ bytes = []) then
      if bytes.length ≤ room then
        let (more, rest) := ready arrived (room - bytes.length) rest
        (bytes ++ more, rest)
      else (bytes.take room, .output need held (bytes.drop room) :: rest)
    else ([], .output need held bytes :: rest)
  | room, .lateFault need :: rest =>
    ([], if room = 0 then .lateFault need :: rest else .fault need :: rest)
  | _, steps => ([], steps)

/-- How far a read of `count` bytes works ahead. -/
def room (u : Unpacking) (count : Nat) : Nat :=
  if u.window = 0 then count
  else (u.produced + count + u.window - 1) / u.window * u.window - u.produced

/-- Whether the end of the data can be reached with the input at hand. -/
def atEnd (u : Unpacking) : Bool :=
  match u.steps with
  | .finish need _ _ :: _ => u.kept.isEmpty && need ≤ u.arrived
  | _ => false

/-- Works until there is output, fetching more input as long as there is
none. -/
def work (u : Unpacking) (count : Nat) : Nat → List Nat → Option (List UInt8 × Unpacking)
  | arrived, fetches =>
    let (out, steps) := ready arrived (u.room count) u.steps
    let usedUp := match steps with
      | step :: _ => arrived < step.need ∨ arrived ≤ step.held
      | [] => true
    let after := { u with
      steps, arrived, fetches, usedUp, kept := out.drop count,
      produced := u.produced + out.length }
    match steps with
    | .fault need :: _ => if need ≤ arrived then none else proceed out after fetches
    | .finish need close sound :: _ =>
      if need ≤ arrived ∧ out = [] then
        if sound ∧ close ≤ u.total then some ([], after) else none
      else proceed out after fetches
    | _ => proceed out after fetches
where
  /-- Hands out what was produced, or goes on with the next buffer. -/
  proceed (out : List UInt8) (after : Unpacking) : List Nat → Option (List UInt8 × Unpacking)
    | [] => if out = [] then none else some (out.take count, after)
    | next :: fetches =>
      if out = [] then work u count next fetches else some (out.take count, after)

/-- One read of at most `count` bytes.  No bytes mean that the data have
ended. -/
def read (u : Unpacking) (count : Nat) : Option (List UInt8 × Unpacking) :=
  match u.usedUp && !u.atEnd, u.fetches with
  | true, [] => if u.broken then none else serve u u.arrived []
  | true, next :: fetches => serve u next fetches
  | false, fetches => serve u u.arrived fetches
where
  /-- Hands out kept output first. -/
  serve (u : Unpacking) (arrived : Nat) (fetches : List Nat) :
      Option (List UInt8 × Unpacking) :=
    if u.kept.isEmpty then work u count arrived fetches
    else some (u.kept.take count,
      { u with arrived, fetches, usedUp := arrived == u.arrived && u.usedUp,
               kept := u.kept.drop count })

end Unpacking

/-- The sizes of the buffers that a piece is fetched in. -/
def fetchSizes (fetchSize length : Nat) : List Nat :=
  List.replicate (length / fetchSize) fetchSize
    ++ if length % fetchSize = 0 then [] else [length % fetchSize]

/-- The number of input bytes after each fetch, when pieces are fetched
`fetchSize` bytes at a time. -/
def fetchTotals (fetchSize : Nat) (pieces : List (List UInt8)) : List Nat :=
  let sizes := pieces.flatMap fun piece => fetchSizes fetchSize piece.length
  ((sizes.foldl (fun (totals, sum) size => ((sum + size) :: totals, sum + size)) ([], 0)).1).reverse

/-- A source of bytes. -/
inductive Inflow where
  /-- Bytes as they are, and whether the source breaks after them. -/
  | plain (bytes : List UInt8) (broken : Bool)
  | packed (unpacking : Unpacking)

namespace Inflow

/-- The source that a stream is when nothing is compressed. -/
def ofStream (s : Stream) : Inflow := plain s.bytes s.failure.isSome

/-- One read of at most `count` bytes.  No bytes mean that the data have
ended; no answer means that reading failed. -/
def read (count : Nat) : Inflow → Option (List UInt8 × Inflow)
  | plain [] broken => if broken then none else some ([], plain [] broken)
  | plain bytes broken => some (bytes.take count, plain (bytes.drop count) broken)
  | packed u => (u.read count).map fun (bytes, u) => (bytes, packed u)

/-- Reads of at most `span` bytes each until `count` bytes are there or the
data end.  If `grows`, the span doubles after every read that yields as
much. -/
def take (grows : Bool) (span count : Nat) (source : Inflow) : Option (List UInt8 × Inflow) :=
  if count = 0 then some ([], source)
  else
    match source.read (min span count) with
    | none => none
    | some (bytes, source) =>
      if bytes = [] then some ([], source)
      else
        let span := if grows && bytes.length == span then 2 * span else span
        (source.take grows span (count - bytes.length)).map fun (more, source) =>
          (bytes ++ more, source)
termination_by count
decreasing_by
  have : bytes.length ≠ 0 := by simpa using ‹¬bytes = []›
  omega

/-- The number of bytes that can still come. -/
def remaining : Inflow → Nat
  | plain bytes _ => bytes.length
  | packed u => u.steps.foldr (fun step count => step.size + count) u.kept.length

end Inflow

end ContentPreview.Archive
