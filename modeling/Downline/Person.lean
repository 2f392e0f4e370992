import Std.Data.TreeMap
import Std.Data.TreeSet

/-!
The people of a distributor tree: identities, login credentials and what is known about a person.
A person's credential state is derived from the two halves of its login and is never stored.
-/

namespace Downline

/-- The identity of a person: any text, the empty one included. -/
structure PersonId where
  text : String
deriving DecidableEq, Hashable, Inhabited, Repr

namespace PersonId

instance : Ord PersonId := ⟨fun a b => compare a.text b.text⟩

theorem compare_eq (a b : PersonId) : compare a b = compare a.text b.text := rfl

instance : Std.OrientedOrd PersonId where
  eq_swap {a b} := by
    rw [compare_eq, compare_eq]
    exact Std.OrientedCmp.eq_swap

instance : Std.TransOrd PersonId where
  isLE_trans {a b c} h h' := by
    rw [compare_eq] at *
    exact Std.TransCmp.isLE_trans h h'

instance : Std.LawfulEqOrd PersonId where
  compare_self {a} := by
    rw [compare_eq]
    exact Std.ReflCmp.compare_self
  eq_of_compare {a b} h := by
    rw [compare_eq] at h
    cases a
    cases b
    exact congrArg PersonId.mk (Std.LawfulEqCmp.eq_of_compare h)

end PersonId

/-- A set of ids, listed in ascending order. -/
abbrev IdSet := Std.TreeSet PersonId

def IdSet.ofIds (ids : List PersonId) : IdSet :=
  ids.foldl (fun found id => found.insert id) ∅

/-- A complete username and password. -/
structure Credentials where
  username : String
  password : String
deriving DecidableEq, Inhabited, Repr

/-- The pair of two halves, if both are set. -/
def Credentials.ofHalves? (username password : Option String) : Option Credentials :=
  match username, password with
  | some u, some p => some ⟨u, p⟩
  | _, _ => none

/-- What a login amounts to. -/
inductive CredentialState where
  /-- A half is missing. -/
  | empty
  /-- Both halves are set and the password is the well-known placeholder. -/
  | placeholder
  /-- Both halves are set and the password is a real one. -/
  | full
deriving DecidableEq, Inhabited, Repr

/-- Classifies a login. One with a missing half is empty even when its password is the placeholder. -/
def CredentialState.classify (username password : Option String) (placeholder : String) :
    CredentialState :=
  match username, password with
  | some _, some p => if p = placeholder then .placeholder else .full
  | _, _ => .empty

/-- Counts of people by credential state. The counters are 64-bit words. -/
structure CredentialCensus where
  empty : UInt64 := 0
  placeholder : UInt64 := 0
  full : UInt64 := 0
deriving DecidableEq, Inhabited, Repr

namespace CredentialCensus

def total (c : CredentialCensus) : UInt64 :=
  c.empty + c.placeholder + c.full

def record (c : CredentialCensus) : CredentialState → CredentialCensus
  | .empty => { c with empty := c.empty + 1 }
  | .placeholder => { c with placeholder := c.placeholder + 1 }
  | .full => { c with full := c.full + 1 }

end CredentialCensus

/-- What is stored about a person besides its identity and its relations. -/
structure PersonAttributes where
  name : Option String := none
  rank : Option String := none
  highestRank : Option String := none
  signupDate : Option String := none
  center : Option String := none
  country : Option String := none
  personalPv : Float := 0
  networkPv : Float := 0
  totalPv : Float := 0
  username : Option String := none
  password : Option String := none
  /-- Whether the tree builder has expanded the part of the tree below the person. -/
  builtTree : Bool := false
deriving Inhabited

namespace PersonAttributes

def state (a : PersonAttributes) (placeholder : String) : CredentialState :=
  .classify a.username a.password placeholder

/-- The stored login, if it is complete. -/
def credentials? (a : PersonAttributes) : Option Credentials :=
  Credentials.ofHalves? a.username a.password

def withLogin (a : PersonAttributes) (login : Option Credentials) : PersonAttributes :=
  { a with username := login.map (·.username), password := login.map (·.password) }

end PersonAttributes

/-- A person as stored: its identity and its attributes. -/
structure PersonRecord where
  id : PersonId
  attributes : PersonAttributes := {}
deriving Inhabited

/-- The three neighbours of a person in the tree. -/
structure Relations where
  parent : Option PersonId := none
  left : Option PersonId := none
  right : Option PersonId := none
deriving DecidableEq, Inhabited, Repr

namespace Relations

/-- A person with no child. -/
def isLeaf (r : Relations) : Bool :=
  r.left.isNone && r.right.isNone

/-- The children, the left one first. -/
def children (r : Relations) : List PersonId :=
  r.left.toList ++ r.right.toList

end Relations

/-- The child slot that a person takes under its parent. -/
inductive Side where
  | left
  | right
deriving DecidableEq, Inhabited, Repr

end Downline
