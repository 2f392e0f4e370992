import Downline.Digest.Blake3
import Downline.Json.Printer
import Downline.Json.Reader
import Downline.Json.Decode
import Downline.Propagation
import Downline.Rekey.Pool
import Downline.Timestamp
import Downline.Uuid

/-!
Reports of maintenance runs: what a run did, when, and a hash over all of it. A report is written as
JSON and read back from it; the hash makes a changed report tell.
-/

namespace Downline

open Json (Fields)

/-! ### What a run did -/

namespace PropagationReport

/-- The report as members of an object. -/
def members (r : PropagationReport) : List (String × Json) :=
  [("empty_nodes", .nat r.emptyNodes), ("terminators", .nat r.terminators),
    ("batches", .nat r.batches), ("failed_batches", .array (r.failedBatches.map Json.nat)),
    ("nodes_written", .nat r.nodesWritten), ("unreachable", .nat r.unreachable)]

/-- The report as an object. -/
def toJson (r : PropagationReport) : Json := .obj r.members

def ofJson? (j : Json) : Option PropagationReport := do
  let f ← j.fields? ["empty_nodes", "terminators", "batches", "failed_batches", "nodes_written",
    "unreachable"]
  let emptyNodes ← f.required "empty_nodes" Json.asCount?
  let terminators ← f.required "terminators" Json.asCount?
  let batches ← f.required "batches" Json.asCount?
  let failedBatches ← f.required "failed_batches" (Json.asList? Json.asCount?)
  let nodesWritten ← f.required "nodes_written" Json.asCount?
  let unreachable ← f.required "unreachable" Json.asCount?
  return { emptyNodes, terminators, batches, failedBatches, nodesWritten, unreachable }

end PropagationReport

namespace RekeyReport

/-- The report as members of an object. -/
def members (r : RekeyReport) : List (String × Json) :=
  [("passes", .nat r.passes), ("candidates", .nat r.candidates), ("rekeyed", .nat r.rekeyed),
    ("skipped", .nat r.skipped), ("failed", .nat r.failed), ("nodes_written", .nat r.nodesWritten),
    ("peak_in_flight", .nat r.peakInFlight)]

/-- The report as an object. -/
def toJson (r : RekeyReport) : Json := .obj r.members

def ofJson? (j : Json) : Option RekeyReport := do
  let f ← j.fields? ["passes", "candidates", "rekeyed", "skipped", "failed", "nodes_written",
    "peak_in_flight"]
  let passes ← f.required "passes" (Json.asNat? UInt32.size)
  let candidates ← f.required "candidates" Json.asCount?
  let rekeyed ← f.required "rekeyed" Json.asCount?
  let skipped ← f.required "skipped" Json.asCount?
  let failed ← f.required "failed" Json.asCount?
  let nodesWritten ← f.required "nodes_written" Json.asCount?
  let peakInFlight ← f.required "peak_in_flight" Json.asCount?
  return { passes, candidates, rekeyed, skipped, failed, nodesWritten, peakInFlight }

end RekeyReport

/-- What a run did, by job. -/
inductive JobOutcome where
  | propagation (report : PropagationReport)
  | rekey (report : RekeyReport)
deriving DecidableEq, Inhabited, Repr

namespace JobOutcome

def jobName : JobOutcome → String
  | propagation _ => "propagation"
  | rekey _ => "rekey"

/-- The outcome as an object, the name of its job first. -/
def toJson (o : JobOutcome) : Json :=
  .obj (("job", .text o.jobName) :: match o with
    | propagation r => r.members
    | rekey r => r.members)

def ofTagged? (job content : Json) : Option JobOutcome := do
  match ← job.asText? with
  | "propagation" => return propagation (← PropagationReport.ofJson? content)
  | "rekey" => return rekey (← RekeyReport.ofJson? content)
  | _ => none

/-- The outcome that a document gives. The name of the job may stand anywhere in an object, or first
in an array; so the document must be one that can be kept whole until the name is found. -/
def ofJson? (levels : Nat) (j : Json) : Option JobOutcome :=
  if !j.isKeepable levels then none
  else
    match j with
    | .object members =>
      match members.filter fun m => m.1 == some "job" with
      | [(_, job)] => ofTagged? job (.object (members.filter fun m => m.1 != some "job"))
      | _ => none
    | .array (job :: rest) => ofTagged? job (.array rest)
    | _ => none

end JobOutcome

/-! ### Run reports -/

/-- The record of one run. -/
structure RunReport where
  id : Uuid
  startedAt : Timestamp
  finishedAt : Timestamp
  outcome : JobOutcome
  contentHash : String
deriving DecidableEq, Inhabited, Repr

namespace RunReport

/-- Everything but the hash, as members of an object. -/
def content (r : RunReport) : List (String × Json) :=
  [("id", .text r.id.text), ("started_at", .text r.startedAt.text),
    ("finished_at", .text r.finishedAt.text), ("outcome", r.outcome.toJson)]

/-- The report as an object. -/
def toJson (r : RunReport) : Json := .obj (r.content ++ [("content_hash", .text r.contentHash)])

def ofJson? (j : Json) : Option RunReport := do
  let f ← j.fields? ["id", "started_at", "finished_at", "outcome", "content_hash"]
  let id ← f.required "id" fun j => j.asText?.bind Uuid.ofString?
  let startedAt ← f.required "started_at" fun j => j.asText?.bind Timestamp.ofString?
  let finishedAt ← f.required "finished_at" fun j => j.asText?.bind Timestamp.ofString?
  let outcome ← f.required "outcome" (JobOutcome.ofJson? (Json.maxLevels - 1))
  let contentHash ← f.required "content_hash" Json.asText?
  return { id, startedAt, finishedAt, outcome, contentHash }

def ofString? (s : String) : Option RunReport := do ofJson? (← Json.ofString? s)

/-- The text that is hashed: everything but the hash, on one line. -/
def canonicalText (r : RunReport) : String := (Json.obj r.content).compact

def computeHash (r : RunReport) : String := Blake3.hashHex r.canonicalText

def verifies (r : RunReport) : Bool := r.computeHash == r.contentHash

def sealed (r : RunReport) : RunReport := { r with contentHash := r.computeHash }

/-- How long the run took, in whole milliseconds. -/
def durationMs (r : RunReport) : Int := r.finishedAt.millisSince r.startedAt

end RunReport

end Downline
