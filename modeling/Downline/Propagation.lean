import Downline.Config.Job
import Downline.Program

/-!
Propagation: every empty person takes over the login of the nearest full person above it, and so
does everyone who is not full on the way. Empty people are handled in batches. A batch that fails is
skipped and named in the report; the others go on.
-/

namespace Downline

/-- What one propagation run did. Over memory none of the counts exceeds the number of people. -/
structure PropagationReport where
  /-- Empty people at the start of the run. -/
  emptyNodes : Nat := 0
  /-- Full people at the start of the run. -/
  terminators : Nat := 0
  batches : Nat := 0
  failedBatches : List Nat := []
  nodesWritten : Nat := 0
  /-- Empty people, of batches that did not fail, with no full person above within the depth. -/
  unreachable : Nat := 0
deriving DecidableEq, Inhabited, Repr

/-- How one batch ended. -/
inductive BatchOutcome where
  | settled (written unreachable : Nat)
  | failed (first : PersonId) (error : StoreError)
deriving DecidableEq, Inhabited, Repr

/-- One batch of a propagation run. -/
structure BatchEntry where
  index : Nat
  size : Nat
  outcome : BatchOutcome
deriving DecidableEq, Inhabited, Repr

/-- A propagation run: its report and its batches in order. -/
structure PropagationRun where
  report : PropagationReport
  batches : List BatchEntry
deriving DecidableEq, Inhabited, Repr

def PropagationReport.count (r : PropagationReport) (b : BatchEntry) : PropagationReport :=
  let r := { r with batches := r.batches + 1 }
  match b.outcome with
  | .settled written unreachable =>
    { r with
      nodesWritten := r.nodesWritten + written, unreachable := r.unreachable + unreachable }
  | .failed .. => { r with failedBatches := r.failedBatches ++ [b.index] }

/-- Splits a list into batches of `n`, the last one shorter. -/
def batchesOf {α : Type} (n : Nat) : List α → List (List α)
  | [] => []
  | x :: rest => (x :: rest.take (n - 1)) :: batchesOf n (rest.drop (n - 1))
termination_by l => l.length
decreasing_by
  simp only [List.length_drop, List.length_cons]
  omega

namespace Propagation

/-- What the people below one terminator take over. -/
structure Inheritance where
  credentials : Credentials
  targets : IdSet

/-- Adds a path to the inheritance of its terminator. The people on it who are full stay out, and
the first path of a terminator gives the login. -/
def inherit (full : IdSet) (groups : Std.TreeMap PersonId Inheritance) (path : UpwardPath) :
    Std.TreeMap PersonId Inheritance :=
  let group := groups[path.terminator]?.getD ⟨path.credentials, ∅⟩
  let targets := (path.walked.filter fun id => !full.contains id).foldl
    (fun found id => found.insert id) group.targets
  groups.insert path.terminator { group with targets }

/-- The inheritances that the paths of a batch call for, by terminator. -/
def inheritances (full : IdSet) (paths : List UpwardPath) : Std.TreeMap PersonId Inheritance :=
  paths.foldl (inherit full) ∅

/-- Writes one inheritance after another and adds up how many people were written. -/
def writeAll (guard : WriteGuard) :
    List Inheritance → (written : Nat) → Prog (Except StoreError Nat)
  | [], written => return .ok written
  | group :: rest, written => do
    match ← Prog.request (.setCredentials group.targets.toList group.credentials guard) with
    | .error e => return .error e
    | .ok n => writeAll guard rest (written + n)

/-- The members of a batch from which no path starts. -/
def unreached (batch : List PersonId) (paths : List UpwardPath) : List PersonId :=
  let reached : IdSet := .ofIds (paths.map (·.origin))
  batch.filter fun id => !reached.contains id

def settle (cfg : JobConfig) (full : IdSet) (batch : List PersonId) :
    Prog (Except StoreError BatchOutcome) := do
  match ← Prog.request (.upwardPaths batch full cfg.maxDepth) with
  | .error e => return .error e
  | .ok paths =>
    let groups := (inheritances full paths).toList.map (·.2)
    match ← writeAll (.notFull cfg.placeholderPassword) groups 0 with
    | .error e => return .error e
    | .ok written => return .ok (.settled written (unreached batch paths).length)

/-- Settles one batch after another; `done` holds those before, the latest first. -/
def settleAll (cfg : JobConfig) (full : IdSet) :
    (index : Nat) → List (List PersonId) → (done : List BatchEntry) → Prog (List BatchEntry)
  | _, [], done => return done.reverse
  | index, batch :: rest, done => do
    match ← settle cfg full batch with
    | .ok outcome => settleAll cfg full (index + 1) rest (⟨index, batch.length, outcome⟩ :: done)
    | .error e =>
      match batch with
      | [] => Prog.abort .emptyBatch
      | first :: _ =>
        settleAll cfg full (index + 1) rest
          (⟨index, batch.length, .failed first e⟩ :: done)

end Propagation

def propagation (cfg : JobConfig) : Prog (Except StoreError PropagationRun) := do
  match ← Prog.request .emptyIds with
  | .error e => return .error e
  | .ok empty =>
    match ← Prog.request (.fullIds cfg.placeholderPassword) with
    | .error e => return .error e
    | .ok full =>
      if cfg.batchSize = 0 then Prog.abort .zeroBatch
      else
        let batches ← Propagation.settleAll cfg full 0 (batchesOf cfg.batchSize empty) []
        let start : PropagationReport :=
          { emptyNodes := empty.length, terminators := full.size }
        return .ok { report := batches.foldl PropagationReport.count start, batches }

end Downline
