import Downline.CommandLine.Arguments
import Downline.Config.Load
import Downline.Database.Client
import Downline.Entity
import Downline.Maintenance
import Downline.Person.Document

/-!
What a command does: it loads the settings, connects to the database, works, and prints a document.
-/

namespace Downline.CommandLine

/-- Why a command fails. -/
inductive Failure where
  | store (e : StoreError)
  | sync (e : SyncError)
  | noSuchPerson (id : PersonId)
deriving DecidableEq, Inhabited, Repr

/-- The message of a store error, without a reason that cannot be told from it. -/
def storeMessage (e : StoreError) : String := e.message?.getD "Neo4j query error"

/-- The message shown for a failure, without a reason that cannot be told from it. -/
def Failure.message : Failure → String
  | store e => storeMessage e
  | noSuchPerson id => s!"Person {id.text} not found"
  | sync e =>
    match e with
    | .graph e => "Graph error: " ++ storeMessage e
    | .settings => "Settings error"
    | .serialization => "Serialization error"
    | .io _ => "IO error"
    | e => e.message?.getD ""

/-- What a command prints. -/
inductive Printed where
  | report (r : RunReport)
  | census (c : CredentialCensus)
  | person (r : PersonRecord) (relations : Relations)

def Printed.toJson : Printed → Json
  | report r => r.toJson
  | census c => c.toJson
  | person r relations => r.document relations

/-- How a command ends; `none` where it breaks down or is cut off. -/
abbrev Ending := Except Halt (Except Failure Printed)

/-- What a command works with besides the database: the files, the marks of its runs, and the time
that passes between its cycles. -/
structure Surroundings (σ : Type) where
  files : FileTree
  environment : Environment
  stamps : Nat → CycleStamps
  rest : Nat → σ → σ
  horizon : Nat

variable {σ : Type}

def printRun (journal : Option Journal) (stamp : Stamp) (outcome : JobOutcome) (site : Site σ) :
    Ending × Site σ :=
  match record journal stamp outcome site.files with
  | .error e => (.ok (.error (.sync e)), site)
  | .ok (report, files) => (.ok (.ok (.report report)), { site with files })

def propagateOnce (S : Store σ) (cfg : JobConfig) (journal : Option Journal) (stamp : Stamp)
    (site : Site σ) : Ending × Site σ :=
  match (propagation cfg).run S site.store with
  | (.error h, store) => (.error h, { site with store })
  | (.ok (.error e), store) => (.ok (.error (.sync (.graph e))), { site with store })
  | (.ok (.ok run), store) =>
    printRun journal stamp (.propagation run.report) { site with store }

/-- Re-keying in at most so many passes. -/
def rekeyOnce (S : Store σ) (cfg : JobConfig) (passes : Nat) (journal : Option Journal)
    (stamp : Stamp) (site : Site σ) : Ending × Site σ :=
  match Rekey.untilConverged S cfg passes site.store with
  | (.error h, store) => (.error h, { site with store })
  | (.ok run, store) =>
    match run.result with
    | .error e => (.ok (.error (.sync (.graph e))), { site with store })
    | .ok report => printRun journal stamp (.rekey report) { site with store }

def countPeople (S : Store σ) (cfg : JobConfig) (site : Site σ) : Ending × Site σ :=
  match S.call (.credentialCensus cfg.placeholderPassword) site.store with
  | (.ok census, store) => (.ok (.ok (.census census)), { site with store })
  | (.error (.error e), store) => (.ok (.error (.store e)), { site with store })
  | (.error (.halt h), store) => (.error h, { site with store })

def lookUp (id : PersonId) : Prog (Except Failure Printed) := do
  match ← Entity.load id with
  | .error e => return .error (.store e)
  | .ok none => return .error (.noSuchPerson id)
  | .ok (some person) =>
    match ← person.document with
    | (.ok (record, relations), _) => return .ok (.person record relations)
    | (.error e, _) => return .error (.store e)

def showPerson (S : Store σ) (id : PersonId) (site : Site σ) : Ending × Site σ :=
  match (lookUp id).run S site.store with
  | (ending, store) => (ending, { site with store })

/-- Cycles until the horizon, at which the daemon is cut off. -/
def keepWorking (S : Store σ) (cfg : SyncConfig) (journal : Option Journal)
    (around : Surroundings σ) (site : Site σ) : Ending × Site σ :=
  match Maintenance.runDaemon S cfg.jobs journal cfg.schedule around.stamps around.rest
      around.horizon site with
  | (.error reason, site) => (.error (.panic reason), site)
  | (.ok _, site) => (.error .stopped, site)

def perform (S : Store σ) (cfg : SyncConfig) (journal : Option Journal) (around : Surroundings σ)
    (command : Command) (site : Site σ) : Ending × Site σ :=
  let stamps := around.stamps 0
  match command with
  | .propagate => propagateOnce S cfg.jobs journal stamps.propagation site
  | .rekey passes =>
    rekeyOnce S cfg.jobs (passes.getD cfg.jobs.maxPasses) journal stamps.rekey site
  | .census => countPeople S cfg.jobs site
  | .person id => showPerson S ⟨id⟩ site
  | .daemon => keepWorking S cfg journal around site

/-- Opens the journal of the settings, if they name one. -/
def openJournal (cfg : JobConfig) (files : FileTree) :
    Except SyncError (Option Journal × FileTree) :=
  match cfg.journalDir with
  | none => .ok (none, files)
  | some root => (Journal.open (FilePath.ofText root) files).map fun (j, files) => (some j, files)

/-- Turns a failed request to the server into the end of a command. -/
def Ending.ofFault : Fault → Ending
  | .error e => .ok (.error (.store e))
  | .halt h => .error h

/-- Carries out what the command line asks for, over a link to the database. -/
def run (L : Database.Link σ) (around : Surroundings σ) (inv : Invocation) (s : σ) :
    Ending × Site σ :=
  let site : Site σ := { store := s, files := around.files }
  match SyncConfig.load around.files inv.settings around.environment with
  | .error e => (.ok (.error (.sync e)), site)
  | .ok cfg =>
    match Database.connect L cfg.neo4j s with
    | (.error f, store) => (Ending.ofFault f, { site with store })
    | (.ok _, store) =>
      match L.ensureSchema store with
      | (.error f, store) => (Ending.ofFault f, { site with store })
      | (.ok _, store) =>
        match openJournal cfg.jobs site.files with
        | .error e => (.ok (.error (.sync e)), { site with store })
        | .ok (journal, files) =>
          perform L.store cfg journal around inv.command { store, files }

end Downline.CommandLine
