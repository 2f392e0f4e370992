import Downline.Person

/-!
What the maintenance jobs may ask of a store of people, and what a store may answer. A store is any
state with a rule that answers a call, so one job runs alike over memory and over a database.
-/

namespace Downline

/-- A refusal by a database server. -/
structure ServerFailure where
  code : String
  text : String
deriving DecidableEq, Inhabited, Repr

/-- Why a store call fails. -/
inductive StoreError where
  | connection (text : String)
  /-- A statement fails; `none` when it broke off while its rows were fetched. -/
  | query (failure : Option ServerFailure)
  | notFound (label id : String)
  | malformed (text : String)
  | unavailable (text : String)
deriving DecidableEq, Inhabited, Repr

/-- The message shown for a failed call, if it can be told from the error. -/
def StoreError.message? : StoreError → Option String
  | connection text => some s!"Neo4j connection error: {text}"
  | query (some f) => some s!"Neo4j query error: Neo4j error `{f.code}`: {f.text}"
  | query none => none
  | notFound label id => some s!"{label} {id} not found"
  | malformed text => some s!"Malformed graph data: {text}"
  | unavailable text => some s!"Node store unavailable: {text}"

/-- An upward walk that reached a terminator. -/
structure UpwardPath where
  origin : PersonId
  /-- The people walked through, the origin first and the terminator left out. -/
  walked : List PersonId
  terminator : PersonId
  credentials : Credentials
deriving DecidableEq, Inhabited, Repr

/-- A chain that may be re-keyed: `start` lies above `last`. -/
structure ChainCandidate where
  start : PersonId
  last : PersonId
deriving DecidableEq, Inhabited, Repr

/-- Candidates are ordered by `start`, then by `last`. -/
instance : Ord ChainCandidate :=
  ⟨fun a b => (compare a.start b.start).then (compare a.last b.last)⟩

/-- One person on a freshly read path, with the login it holds. -/
structure PathNode where
  id : PersonId
  username : Option String
  password : Option String
deriving DecidableEq, Inhabited, Repr

namespace PathNode

/-- Whether the password is the placeholder, whatever the username. -/
def holdsPlaceholder (n : PathNode) (placeholder : String) : Bool :=
  n.password == some placeholder

def state (n : PathNode) (placeholder : String) : CredentialState :=
  .classify n.username n.password placeholder

/-- The login, if it is complete. -/
def credentials? (n : PathNode) : Option Credentials :=
  Credentials.ofHalves? n.username n.password

end PathNode

/-- The condition on a person that a store checks at the moment it writes. -/
inductive WriteGuard where
  /-- Only people who are not full. -/
  | notFull (placeholder : String)
  /-- Only people whose password is still the placeholder. -/
  | holdsPlaceholder (placeholder : String)
deriving DecidableEq, Inhabited, Repr

namespace WriteGuard

def placeholder : WriteGuard → String
  | notFull p => p
  | holdsPlaceholder p => p

def permits (g : WriteGuard) (username password : Option String) : Bool :=
  match g with
  | notFull p => CredentialState.classify username password p != .full
  | holdsPlaceholder p => password == some p

end WriteGuard

/-- What a job may ask of a store. -/
inductive Call where
  | person (id : PersonId)
  | relations (id : PersonId)
  /-- The empty people, in ascending order. -/
  | emptyIds
  | fullIds (placeholder : String)
  /-- The walks up from each origin to its first terminator, over at most `maxDepth` edges. -/
  | upwardPaths (origins : List PersonId) (terminators : IdSet) (maxDepth : UInt32)
  | rekeyCandidates (placeholder : String) (maxDepth : UInt32)
  /-- The path from `start` down to `last`, `start` first. -/
  | downwardPath (start last : PersonId) (maxDepth : UInt32)
  /-- Gives the listed people that the guard permits the same login and counts them. -/
  | setCredentials (ids : List PersonId) (credentials : Credentials) (guard : WriteGuard)
  /-- The number of people in each credential state. -/
  | credentialCensus (placeholder : String)

namespace Call

/-- What a call is answered with. The people written are counted in natural numbers, as in all reports. -/
abbrev Answer : Call → Type
  | person _ => Option PersonRecord
  | relations _ => Relations
  | emptyIds => List PersonId
  | fullIds _ => IdSet
  | upwardPaths .. => List UpwardPath
  | rekeyCandidates .. => List ChainCandidate
  | downwardPath .. => Option (List PathNode)
  | setCredentials .. => Nat
  | credentialCensus _ => CredentialCensus

end Call

/-- The operation that a call belongs to. -/
inductive Operation where
  | person
  | relations
  | emptyIds
  | fullIds
  | upwardPaths
  | rekeyCandidates
  | downwardPath
  | setCredentials
  | credentialCensus
deriving DecidableEq, Hashable, Inhabited, Repr

def Call.operation : Call → Operation
  | person _ => .person
  | relations _ => .relations
  | emptyIds => .emptyIds
  | fullIds _ => .fullIds
  | upwardPaths .. => .upwardPaths
  | rekeyCandidates .. => .rekeyCandidates
  | downwardPath .. => .downwardPath
  | setCredentials .. => .setCredentials
  | credentialCensus _ => .credentialCensus

/-- Why a run breaks down instead of failing in good order. -/
inductive Panic where
  /-- More permits are asked for than a semaphore can hold. -/
  | tooManyPermits
  /-- Ids are to be split into batches of size zero. -/
  | zeroBatch
  /-- The first id of a batch without ids is asked for. -/
  | emptyBatch
  /-- A depth counter runs over its 32 bits. A search goes as deep as its bound lets it, whereas the
  people that are counted are never more than memory holds. -/
  | depthOverflow
  | storeBroke (text : String)
deriving DecidableEq, Inhabited, Repr

/-- The most permits that a semaphore can hold. -/
def maxPermits : Nat := 2305843009213693951

def Panic.message : Panic → String
  | tooManyPermits =>
    s!"a semaphore may not have more than MAX_PERMITS permits ({maxPermits})"
  | zeroBatch => "chunk size must be non-zero"
  | emptyBatch => "index out of bounds: the len is 0 but the index is 0"
  | depthOverflow => "attempt to add with overflow"
  | storeBroke text => text

/-- What ends a run before its result. -/
inductive Halt where
  | panic (reason : Panic)
  | stopped
deriving DecidableEq, Inhabited, Repr

/-- A call that is not answered. -/
inductive Fault where
  | error (e : StoreError)
  | halt (h : Halt)
deriving DecidableEq, Inhabited, Repr

/-- A call under way: its number among the calls of its operation, and when it is answered. -/
structure Ticket where
  number : Nat := 0
  due : Nat := 0
deriving DecidableEq, Inhabited, Repr

/-- A store with states of type `σ`. A call is entered, stays outstanding until it is due, and then
takes effect all at once. -/
structure Store (σ : Type) where
  /-- Takes a call in, or refuses it. -/
  enter : Call → σ → Except Fault Ticket × σ
  /-- Carries out a call that was taken in. -/
  finish : (c : Call) → Ticket → σ → Except Fault c.Answer × σ
  now : σ → Nat

/-- A call from its entry to its answer, with no other call in between. -/
def Store.call {σ : Type} (S : Store σ) (c : Call) (s : σ) : Except Fault c.Answer × σ :=
  match S.enter c s with
  | (.error f, s') => (.error f, s')
  | (.ok t, s') => S.finish c t s'

end Downline
