import Downline.Program

/-!
A person whose relations are fetched when they are first asked for and kept from then on. A fetch
that fails leaves the person unresolved, so the next access tries again.
-/

namespace Downline

/-- A person at hand: its record, and its relations once they are known. -/
structure Entity where
  record : PersonRecord
  relations : Option Relations := none

/-- What can be asked of a person at hand once its relations are known. -/
inductive Relative where
  | parent
  | left
  | right
deriving DecidableEq, Inhabited, Repr

def Relations.get (r : Relations) : Relative → Option PersonId
  | .parent => r.parent
  | .left => r.left
  | .right => r.right

namespace Entity

/-- A person at hand whose relations are not known yet. -/
def ofRecord (record : PersonRecord) : Entity := { record }

def load (id : PersonId) : Prog (Except StoreError (Option Entity)) := do
  match ← Prog.request (.person id) with
  | .error e => return .error e
  | .ok record => return .ok (record.map ofRecord)

def id (e : Entity) : PersonId := e.record.id

def attributes (e : Entity) : PersonAttributes := e.record.attributes

def isResolved (e : Entity) : Bool := e.relations.isSome

/-- Makes the relations known, with a call only if they are not known yet. -/
def resolve (e : Entity) : Prog (Except StoreError Relations × Entity) :=
  match e.relations with
  | some r => return (.ok r, e)
  | none => do
    match ← Prog.request (.relations e.id) with
    | .error err => return (.error err, e)
    | .ok r => return (.ok r, { e with relations := some r })

def relative (e : Entity) (which : Relative) :
    Prog (Except StoreError (Option PersonId) × Entity) := do
  let (r, e) ← e.resolve
  return (r.map (·.get which), e)

def document (e : Entity) : Prog (Except StoreError (PersonRecord × Relations) × Entity) := do
  let (r, e) ← e.resolve
  return (r.map fun relations => (e.record, relations), e)

end Entity

end Downline
