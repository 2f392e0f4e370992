import Downline.Store.Call

/-!
What a database answers: rows of values, and how a value of a known type is taken out of a row. A
column that is missing or holds something else is an error, never a default.
-/

namespace Downline.Database

/-- A value as the database holds it. -/
inductive Value where
  | null
  | bool (b : Bool)
  /-- A 64-bit integer with a sign. -/
  | int (n : Int)
  | float (f : Float)
  | text (s : String)
  | list (items : List Value)
  /-- A node, by its properties. -/
  | node (properties : List (String × Value))
deriving Inhabited

namespace Value

def asText? : Value → Option String
  | text s => some s
  | _ => none

def asBool? : Value → Option Bool
  | bool b => some b
  | _ => none

def asInt? : Value → Option Int
  | int n => some n
  | _ => none

def asNumber? : Value → Option Float
  | float f => some f
  | int n => some (.ofInt n)
  | _ => none

def asTexts? : Value → Option (List String)
  | list items => items.mapM asText?
  | _ => none

def asNode? : Value → Option (List (String × Value))
  | node properties => some properties
  | _ => none

end Value

/-- A row, by its columns. -/
abbrev Row := List (String × Value)

namespace Row

def ofValues (columns : List String) (values : List Value) : Row := columns.zip values

def get? (r : Row) (column : String) : Option Value :=
  (r.find? fun c => c.1 == column).map (·.2)

def column {α : Type} (r : Row) (name : String) (value : Value → Option α) :
    Except StoreError α :=
  match (r.get? name).bind value with
  | some a => .ok a
  | none => .error (.malformed s!"column `{name}`")

def id (r : Row) (name : String) : Except StoreError PersonId :=
  (r.column name Value.asText?).map PersonId.mk

end Row

end Downline.Database
