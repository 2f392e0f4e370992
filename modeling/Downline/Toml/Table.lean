import Downline.Config.Setting

/-!
Tables of a TOML document while it is read. What may still be added to a table depends on how it came
to be, so each remembers that.
-/

namespace Downline.Toml

/-- How a table came to be. -/
inductive Origin where
  | header
  | onTheWay
  | dotted
deriving DecidableEq, Inhabited, Repr

/-- What stands under a key. -/
inductive Node where
  /-- A value, to which nothing can be added. -/
  | value (s : Setting)
  | table (origin : Origin) (entries : List (String × Node))
  /-- Tables with one header, the newest first. -/
  | tables (newestFirst : List (List (String × Node)))

abbrev Entries := List (String × Node)

namespace Entries

/-- Changes what stands under a key; `none` if the change is refused. -/
def change (key : String) (f : Option Node → Option Node) : Entries → Option Entries
  | [] => (f none).map fun n => [(key, n)]
  | (k, n) :: rest =>
    if k = key then (f (some n)).map fun n => (k, n) :: rest
    else (change key f rest).map ((k, n) :: ·)

/-- Changes the table at the end of a path. Tables on the way are made where they are missing; of
tables with one header the newest is meant. -/
def within (f : Entries → Option Entries) : (path : List String) → Entries → Option Entries
  | [], es => f es
  | key :: path, es =>
    es.change key fun
      | none => (within f path []).map (.table .onTheWay)
      | some (.table origin es) => (within f path es).map (.table origin)
      | some (.tables (newest :: older)) =>
        (within f path newest).map fun es => .tables (es :: older)
      | _ => none

/-- Puts a value under a key with one or more parts. Nothing may stand there yet, and a key with
several parts adds neither to a table with a header of its own nor, with its last part, to one that
did not come from such a key. -/
def put (value : Setting) : (path : List String) → Entries → Option Entries
  | [], _ => none
  | [key], es =>
    es.change key fun
      | none => some (.value value)
      | some _ => none
  | key :: path, es =>
    es.change key fun
      | none => (put value path []).map (.table .dotted)
      | some (.table .dotted es) => (put value path es).map (.table .dotted)
      | some (.table .onTheWay es) =>
        if path.length ≤ 1 then none else (put value path es).map (.table .onTheWay)
      | some (.tables (newest :: older)) =>
        if path.length ≤ 1 then none
        else (put value path newest).map fun es => .tables (es :: older)
      | _ => none

/-- Gives a table a header, which it must not have yet. -/
def openTable (key : String) (es : Entries) : Option Entries :=
  es.change key fun
    | none => some (.table .header [])
    | some (.table .onTheWay es) => some (.table .header es)
    | _ => none

def openNext (key : String) (es : Entries) : Option Entries :=
  es.change key fun
    | none => some (.tables [[]])
    | some (.tables older) => some (.tables ([] :: older))
    | _ => none

end Entries

mutual

def Node.setting : Node → Setting
  | .value s => s
  | .table _ es => .table (entrySettings es)
  | .tables ts => .list (tableSettings ts).reverse

def entrySettings : List (String × Node) → List (String × Setting)
  | [] => []
  | (key, n) :: rest => (key, n.setting) :: entrySettings rest

def tableSettings : List (List (String × Node)) → List Setting
  | [] => []
  | es :: rest => .table (entrySettings es) :: tableSettings rest

end

end Downline.Toml
