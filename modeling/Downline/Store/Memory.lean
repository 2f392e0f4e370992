import Downline.Store.Chains

/-!
The in-memory store: a tree of people, the ids whose calls fail, and counts of how it is used.
-/

namespace Downline

/-- How a store has been used. -/
structure Usage where
  calls : Nat := 0
  relationLookups : Nat := 0
  writeCalls : Nat := 0
  /-- People actually written. -/
  nodesWritten : Nat := 0
  /-- Calls entered and not yet answered. -/
  outstanding : Nat := 0
  /-- The most calls that were outstanding at once. -/
  peak : Nat := 0
deriving DecidableEq, Inhabited, Repr

/-- A store of people in memory. -/
structure MemoryStore where
  tree : Tree := {}
  /-- Every call that names one of these ids fails. -/
  failing : IdSet := ∅
  usage : Usage := {}
deriving Inhabited

namespace MemoryStore

def arrive (s : MemoryStore) : MemoryStore :=
  let outstanding := s.usage.outstanding + 1
  { s with usage := { s.usage with
      calls := s.usage.calls + 1, outstanding, peak := max s.usage.peak outstanding } }

def leave (s : MemoryStore) : MemoryStore :=
  { s with usage := { s.usage with outstanding := s.usage.outstanding - 1 } }

/-- The failure of a call that names these ids, for the first of them that is failing. -/
def refusal? (s : MemoryStore) (ids : List PersonId) : Option StoreError :=
  (ids.find? s.failing.contains).map fun id =>
    .unavailable s!"simulated failure touching {id.text}"

/-- Answers from the tree, unless one of the ids is failing. -/
def reading {α : Type} (s : MemoryStore) (ids : List PersonId) (answer : α) :
    Except Fault α × MemoryStore :=
  match s.refusal? ids with
  | some e => (.error (.error e), s)
  | none => (.ok answer, s)

def perform (s : MemoryStore) : (c : Call) → Except Fault c.Answer × MemoryStore
  | .person id => s.reading [id] (s.tree.person? id)
  | .relations id =>
    let s := { s with usage := { s.usage with relationLookups := s.usage.relationLookups + 1 } }
    match s.refusal? [id] with
    | some e => (.error (.error e), s)
    | none =>
      if (s.tree.person? id).isNone then (.error (.error (.notFound "Person" id.text)), s)
      else (.ok (s.tree.relationsOf id), s)
  | .emptyIds => (.ok s.tree.emptyIds, s)
  | .fullIds placeholder => (.ok (s.tree.fullIds placeholder), s)
  | .upwardPaths origins terminators maxDepth =>
    s.reading origins (origins.filterMap (s.tree.upwardPath? terminators maxDepth))
  | .rekeyCandidates placeholder maxDepth =>
    match s.tree.rekeyCandidates placeholder maxDepth with
    | .ok candidates => (.ok candidates, s)
    | .error reason => (.error (.halt (.panic reason)), s)
  | .downwardPath start last maxDepth =>
    s.reading [start, last] (s.tree.downwardPath? start last maxDepth)
  | .setCredentials ids credentials guard =>
    let s := { s with usage := { s.usage with writeCalls := s.usage.writeCalls + 1 } }
    match s.refusal? ids with
    | some e => (.error (.error e), s)
    | none =>
      let (written, tree) := s.tree.write ids credentials guard
      (.ok written,
        { s with tree, usage := { s.usage with nodesWritten := s.usage.nodesWritten + written } })
  | .credentialCensus placeholder => (.ok (s.tree.census placeholder), s)

/-- Memory as a store. Calls are answered at once. -/
def store : Store MemoryStore where
  enter _ s := (.ok {}, s.arrive)
  finish c _ s := let (answer, s) := s.perform c; (answer, s.leave)
  now _ := 0

end MemoryStore

/-- A change to the store from outside the jobs: the tree builder, another writer, or an outage. -/
inductive Edit where
  | insert (person : PersonRecord)
  | attach (parent child : PersonId) (side : Side)
  | overwrite (id : PersonId) (login : Option Credentials)
  | failOn (id : PersonId)
  | clearFailures

def MemoryStore.edit (s : MemoryStore) : Edit → MemoryStore
  | .insert person => { s with tree := s.tree.insert person }
  | .attach parent child side => { s with tree := s.tree.attach parent child side }
  | .overwrite id login => { s with tree := s.tree.setLogin id login }
  | .failOn id => { s with failing := s.failing.insert id }
  | .clearFailures => { s with failing := ∅ }

end Downline
