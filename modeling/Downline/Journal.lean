import Downline.Error
import Downline.Journal.Report

/-!
The journal of maintenance runs: one JSON file a run, in directories by the date of its start. A
report is looked up by its id wherever it lies, and given back only if its hash is right.
-/

namespace Downline

/-- A journal, by its root directory. -/
structure Journal where
  root : FilePath
deriving DecidableEq, Inhabited, Repr

namespace Journal

/-- Opens a journal, making its directory if there is none. -/
def «open» (root : FilePath) (files : FileTree) : Except SyncError (Journal × FileTree) :=
  match files.makeDirectories root with
  | .ok files => .ok ({ root }, files)
  | .error e => .error (.io e)

def fileName (id : Uuid) : String := id.text ++ ".json"

/-- Where a report is kept: under the date of its start. -/
def pathOf (j : Journal) (r : RunReport) : FilePath :=
  j.root ++ r.startedAt.datePath ++ [fileName r.id]

/-- Keeps a report, in place of one kept at the same path before. -/
def save (j : Journal) (r : RunReport) (files : FileTree) :
    Except SyncError (FilePath × FileTree) :=
  let path := j.pathOf r
  match files.makeDirectories path.dropLast with
  | .error e => .error (.io e)
  | .ok files =>
    match files.write path r.toJson.pretty with
    | .error e => .error (.io e)
    | .ok files => .ok (path, files)

def get (j : Journal) (id : Uuid) (files : FileTree) : Except SyncError RunReport :=
  match files.find? j.root (fileName id) with
  | none => .error (.journal (.notFound id.text))
  | some (_, text) =>
    match RunReport.ofString? text with
    | none => .error .serialization
    | some r => if r.verifies then .ok r else .error (.journal (.tampered id.text))

end Journal

/-- What the world gives to the record of a run: an id of its own, and the times. -/
structure Stamp where
  id : Uuid
  startedAt : Timestamp
  finishedAt : Timestamp
deriving DecidableEq, Inhabited, Repr

/-- The report of a finished run, with its hash. -/
def RunReport.seal (stamp : Stamp) (outcome : JobOutcome) : RunReport :=
  RunReport.sealed {
    id := stamp.id, startedAt := stamp.startedAt, finishedAt := stamp.finishedAt
    outcome, contentHash := "" }

/-- Seals a run and keeps it if there is a journal. -/
def record (journal : Option Journal) (stamp : Stamp) (outcome : JobOutcome) (files : FileTree) :
    Except SyncError (RunReport × FileTree) :=
  let report := RunReport.seal stamp outcome
  match journal with
  | none => .ok (report, files)
  | some j => (j.save report files).map fun (_, files) => (report, files)

end Downline
