import ContentPreview.Json.Value
import ContentPreview.Service

/-!
# Sweeps

Storing the missing previews of many bitstreams, one after the other.  A
failure is noted and the sweep goes on.  The report counts what became of each
bitstream; a message is sent after every hundredth.

## Main definitions

* `SweepReport` — what became of the bitstreams.
* `SweepProgress` — a message on the way.
* `Service.sweep` — the report and the messages of a sweep.
-/

namespace ContentPreview

/-- A bitstream whose preview failed, with the wording of the error. -/
structure SweepFailure where
  bitstream : BitstreamId
  error : String
deriving DecidableEq

/-- What became of the bitstreams of a sweep. -/
structure SweepReport where
  processed : Nat := 0
  generated : Nat := 0
  nodesStored : Nat := 0
  existing : Nat := 0
  denied : Nat := 0
  transient : Nat := 0
  empty : Nat := 0
  failures : List SweepFailure := []
deriving DecidableEq

/-- A message about the state of a sweep. -/
structure SweepProgress where
  processed : Nat
  generated : Nat
  failed : Nat
  /-- The bitstream that was processed last. -/
  current : BitstreamId
deriving DecidableEq

/-- The number of bitstreams between two messages. -/
def progressInterval : Nat := 100

namespace SweepReport

/-- Whether nothing failed. -/
def isClean (r : SweepReport) : Bool := r.failures.isEmpty

/-- Counts an outcome. -/
def count (r : SweepReport) : Outcome → SweepReport
  | .denied => { r with denied := r.denied + 1 }
  | .existing => { r with existing := r.existing + 1 }
  | .stored nodes => { r with generated := r.generated + 1, nodesStored := r.nodesStored + nodes }
  | .transient => { r with transient := r.transient + 1 }
  | .empty => { r with empty := r.empty + 1 }

/-- The report after one more bitstream. -/
def note (r : SweepReport) (b : Bitstream) (answer : Except PreviewError Outcome) : SweepReport :=
  let r : SweepReport := match answer with
    | .ok outcome => r.count outcome
    | .error e => { r with failures := r.failures ++ [⟨b.id, e.message⟩] }
  { r with processed := r.processed + 1 }

/-- The message that is due after a bitstream, if one is. -/
def message? (r : SweepReport) (b : Bitstream) : Option SweepProgress :=
  if r.processed % progressInterval = 0 then
    some ⟨r.processed, r.generated, r.failures.length, b.id⟩
  else none

/-- The JSON form of a report; times are those of an instant. -/
def toJson (r : SweepReport) : Json.Value :=
  .ofFields [("processed", .ofNat r.processed), ("generated", .ofNat r.generated),
    ("nodes_stored", .ofNat r.nodesStored), ("existing", .ofNat r.existing),
    ("denied", .ofNat r.denied), ("transient", .ofNat r.transient), ("empty", .ofNat r.empty),
    ("failures", .list (r.failures.map fun f =>
      .ofFields [("bitstream", .ofText f.bitstream), ("error", .ofText f.error)])),
    ("elapsed_ms", .ofNat 0)]

end SweepReport

namespace Service

variable {σ : Type} [Store σ]

/-- Goes on with a sweep after the given report and messages. -/
def sweepFrom (svc : Service) (source : Source) :
    List Bitstream → SweepReport → List SweepProgress →
      StateM (ServiceState σ) (SweepReport × List SweepProgress)
  | [], report, sent => return (report, sent)
  | b :: rest, report, sent => do
    let answer ← (svc.ensure source b).run
    let report := report.note b answer
    sweepFrom svc source rest report (sent ++ (report.message? b).toList)

/-- Stores the missing previews of the bitstreams.  The answer holds the report
and the messages sent on the way. -/
def sweep (svc : Service) (source : Source) (bitstreams : List Bitstream) :
    StateM (ServiceState σ) (SweepReport × List SweepProgress) :=
  svc.sweepFrom source bitstreams {} []

end Service

end ContentPreview
