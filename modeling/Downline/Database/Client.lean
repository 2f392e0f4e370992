import Downline.Config.Sync
import Downline.Database.Address
import Downline.Database.Answer
import Downline.Database.Statement

/-!
A store of people that is kept in a database. It works over any link that takes statements to a
server and brings replies back.
-/

namespace Downline.Database

/-- What a server replies to a statement. -/
inductive Reply where
  | rows (rows : List Row)
  | refused (failure : ServerFailure)
  /-- The reply breaks off while its rows are fetched, or does not come at all. -/
  | broken
deriving Inhabited

/-- A way to a server, with states of type `σ`. -/
structure Link (σ : Type) where
  /-- Presents a user and a password. A refusal comes with the reason. -/
  logIn : (user password : String) → σ → Except Fault Unit × σ
  send : Statement → σ → Except Halt Reply × σ
  now : σ → Nat

namespace Link

variable {σ : Type}

def rows (L : Link σ) (q : Statement) (s : σ) : Except Fault (List Row) × σ :=
  match L.send q s with
  | (.ok (.rows rows), s) => (.ok rows, s)
  | (.ok (.refused failure), s) => (.error (.error (.query (some failure))), s)
  | (.ok .broken, s) => (.error (.error (.query none)), s)
  | (.error h, s) => (.error (.halt h), s)

/-- Runs a statement whose rows nobody wants. -/
def run (L : Link σ) (q : Statement) (s : σ) : Except Fault Unit × σ :=
  match L.rows q s with
  | (.ok _, s) => (.ok (), s)
  | (.error f, s) => (.error f, s)

/-- Makes sure that the server answers, with a row. -/
def ping (L : Link σ) (s : σ) : Except Fault Unit × σ :=
  match L.rows .ping s with
  | (.ok (_ :: _), s) => (.ok (), s)
  | (.ok [], s) => (.error (.error (.connection "server returned no rows")), s)
  | (.error f, s) => (.error f, s)

def ensureSchema (L : Link σ) (s : σ) : Except Fault Unit × σ := L.run .index s

/-- The link as a store of people. -/
def store (L : Link σ) : Store σ where
  enter _ s := (.ok {}, s)
  finish c _ s :=
    match Statement.ofCall? c with
    | none => ((answerOfRows c []).mapError .error, s)
    | some q =>
      match L.rows q s with
      | (.ok rows, s) => ((answerOfRows c rows).mapError .error, s)
      | (.error f, s) => (.error f, s)
  now := L.now

end Link

def schemes : List String := ["bolt", "bolt+s", "neo4j", "neo4j+s"]

def addressOf (uri : String) : Except StoreError Address :=
  match Address.ofText uri with
  | .error fault => .error (.connection s!"Invalid URI: {fault.message}")
  | .ok address =>
    if schemes.contains address.scheme then .ok address
    else .error (.connection s!"Unsupported URI scheme: {address.scheme}")

/-- Connects to the server of an address and makes sure that it answers. Where no connection may be
open, it waits for one until it is cut off. -/
def connect {σ : Type} (L : Link σ) (cfg : GraphConfig) (s : σ) : Except Fault Unit × σ :=
  match addressOf cfg.uri with
  | .error e => (.error (.error e), s)
  | .ok _ =>
    if cfg.maxConnections = 0 then (.error (.halt .stopped), s)
    else
      match L.logIn cfg.user cfg.password s with
      | (.ok _, s) => L.ping s
      | (.error f, s) => (.error f, s)

/-- A link on which no server is reached. -/
def unreachable : Link Unit where
  logIn _ _ s := (.error (.error (.query none)), s)
  send _ s := (.ok .broken, s)
  now _ := 0

end Downline.Database
