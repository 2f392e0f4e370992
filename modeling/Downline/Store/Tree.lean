import Downline.Store.Call

/-!
A tree of people held in memory: records and relations by id. Relations may name ids that are no
people, and nothing forces them to form a tree; every walk below ends all the same.
-/

namespace Downline

/-- People and their relations, by id. -/
structure Tree where
  people : Std.TreeMap PersonId PersonRecord := ∅
  relations : Std.TreeMap PersonId Relations := ∅
  /-- A record is kept under the id that it names. -/
  keyed : ∀ (id : PersonId) (r : PersonRecord), people[id]? = some r → r.id = id := by
    intro id r h
    rw [Std.TreeMap.getElem?_emptyc] at h
    cases h

instance : Inhabited Tree := ⟨{}⟩

namespace Tree

/-! ### Reading -/

def person? (t : Tree) (id : PersonId) : Option PersonRecord :=
  t.people[id]?

/-- The relations of an id; none of them for an id that was never related. -/
def relationsOf (t : Tree) (id : PersonId) : Relations :=
  t.relations[id]?.getD {}

def parentOf (t : Tree) (id : PersonId) : Option PersonId :=
  (t.relationsOf id).parent

/-- The children of an id, the left one first. -/
def childrenOf (t : Tree) (id : PersonId) : List PersonId :=
  (t.relationsOf id).children

theorem length_childrenOf_le (t : Tree) (id : PersonId) : (t.childrenOf id).length ≤ 2 := by
  unfold childrenOf Relations.children
  cases (t.relationsOf id).left <;> cases (t.relationsOf id).right <;> simp

def passwordOf (t : Tree) (id : PersonId) : Option String :=
  (t.person? id).bind (·.attributes.password)

/-- The credential state of an id; an id that is no person counts as empty. -/
def stateOf (t : Tree) (placeholder : String) (id : PersonId) : CredentialState :=
  match t.person? id with
  | some r => r.attributes.state placeholder
  | none => .empty

def credentialsOf (t : Tree) (id : PersonId) : Option Credentials :=
  (t.person? id).bind (·.attributes.credentials?)

/-- An id as a node of a path, with the login it holds. -/
def pathNode (t : Tree) (id : PersonId) : PathNode where
  id := id
  username := (t.person? id).bind (·.attributes.username)
  password := (t.person? id).bind (·.attributes.password)

/-- The people without a complete login, in ascending order. -/
def emptyIds (t : Tree) : List PersonId :=
  (t.people.toList.filter fun p =>
    p.2.attributes.username.isNone || p.2.attributes.password.isNone).map (·.2.id)

/-- The full people, in ascending order. -/
def fullList (t : Tree) (placeholder : String) : List PersonId :=
  (t.people.toList.filter fun p => p.2.attributes.state placeholder == .full).map (·.2.id)

def fullIds (t : Tree) (placeholder : String) : IdSet :=
  .ofIds (t.fullList placeholder)

/-- The number of people in each credential state. -/
def census (t : Tree) (placeholder : String) : CredentialCensus :=
  t.people.toList.foldl (fun c p => c.record (p.2.attributes.state placeholder)) {}

/-! ### Walks -/

/-- Climbs from `current` over at most `n` edges to the first terminator. `walked` holds what was
passed so far, the latest first; the answer lists it in the order of the walk. -/
def climb (t : Tree) (terminators : IdSet) :
    (n : Nat) → (current : PersonId) → (walked : List PersonId) → Option (List PersonId × PersonId)
  | 0, _, _ => none
  | n + 1, current, walked =>
    match t.parentOf current with
    | none => none
    | some parent =>
      if terminators.contains parent then some (walked.reverse, parent)
      else climb t terminators n parent (parent :: walked)

/-- The walk up from a person to its first terminator, if that terminator is a person with a
complete login. -/
def upwardPath? (t : Tree) (terminators : IdSet) (maxDepth : UInt32) (origin : PersonId) :
    Option UpwardPath :=
  if (t.person? origin).isNone then none
  else
    match t.climb terminators maxDepth.toNat origin [origin] with
    | none => none
    | some (walked, terminator) =>
      (t.credentialsOf terminator).map fun credentials =>
        { origin, walked, terminator, credentials }

/-- Climbs from `current` over at most `n` edges to `start`, collecting the path below `start`. -/
def pathDownFrom (t : Tree) (start : PersonId) :
    (n : Nat) → (current : PersonId) → (below : List PathNode) → Option (List PathNode)
  | 0, _, _ => none
  | n + 1, current, below =>
    match t.parentOf current with
    | none => none
    | some parent =>
      if parent = start then some (t.pathNode parent :: below)
      else pathDownFrom t start n parent (t.pathNode parent :: below)

/-- The path from `start` down to the person `last`: the climb from `last` that ends when it first
meets `start`, turned round. -/
def downwardPath? (t : Tree) (start last : PersonId) (maxDepth : UInt32) : Option (List PathNode) :=
  if (t.person? last).isNone then none
  else t.pathDownFrom start maxDepth.toNat last [t.pathNode last]

/-! ### Growth and other writers -/

/-- Adds a person or replaces its record; its relations stay as they are. -/
def insert (t : Tree) (r : PersonRecord) : Tree where
  people := t.people.insert r.id r
  relations := t.relations.insertIfNew r.id {}
  keyed id r' h := by
    rw [Std.TreeMap.getElem?_insert] at h
    split at h
    next he =>
      cases h
      exact Std.LawfulEqOrd.compare_eq_iff_eq.mp he
    next => exact t.keyed id r' h

/-- Makes `child` the child of `parent` on one side. Links that this supersedes elsewhere stay. -/
def attach (t : Tree) (parent child : PersonId) (side : Side) : Tree :=
  let above := t.relationsOf parent
  let above := match side with
    | .left => { above with left := some child }
    | .right => { above with right := some child }
  let t := { t with relations := t.relations.insert parent above }
  { t with
    relations := t.relations.insert child { t.relationsOf child with parent := some parent } }

/-- Replaces the login of a person, whatever it holds. -/
def setLogin (t : Tree) (id : PersonId) (login : Option Credentials) : Tree :=
  { t with
    people := t.people.modify id fun r =>
      { r with attributes := r.attributes.withLogin login }
    keyed := fun x r h => by
      rw [Std.TreeMap.getElem?_modify] at h
      split at h
      next he =>
        obtain ⟨r', hr', rfl⟩ := Option.map_eq_some_iff.mp h
        exact (t.keyed id r' hr').trans (Std.LawfulEqOrd.compare_eq_iff_eq.mp he)
      next => exact t.keyed x r h }

/-! ### Guarded writes -/

/-- Whether the guard lets a write to this id through; an id that is no person is never written. -/
def permits (t : Tree) (guard : WriteGuard) (id : PersonId) : Bool :=
  match t.person? id with
  | some r => guard.permits r.attributes.username r.attributes.password
  | none => false

/-- The people that a guarded write reaches, each once. -/
def writable (t : Tree) (ids : List PersonId) (guard : WriteGuard) : List PersonId :=
  (IdSet.ofIds ids).toList.filter (t.permits guard)

/-- Gives the people that the guard permits the same login; answers how many they are. -/
def write (t : Tree) (ids : List PersonId) (credentials : Credentials) (guard : WriteGuard) :
    Nat × Tree :=
  let targets := t.writable ids guard
  (targets.length, targets.foldl (fun t id => t.setLogin id (some credentials)) t)

/-! ### Comparison -/

/-- The people whose login is not the one they had before, or who were not there before, in ascending
order. -/
def loginChanges (before after : Tree) : List PersonRecord :=
  (after.people.toList.filter fun p =>
    match before.person? p.1 with
    | some r => r.attributes.username != p.2.attributes.username ||
        r.attributes.password != p.2.attributes.password
    | none => true).map (·.2)

end Tree

end Downline
