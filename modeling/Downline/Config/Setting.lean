import Downline.Config.Sync
import Downline.Decimal.Literal

/-!
Settings before their types are known: a tree of values that several sources fill one after another.
A later source overrides an earlier one key by key. Where a field is read, a value of another type is
converted if it can be.
-/

namespace Downline

/-- A value as a source gives it. -/
inductive Setting where
  | unset
  | bool (b : Bool)
  | int (n : Int)
  | float (f : Float)
  | text (s : String)
  | list (items : List Setting)
  | table (entries : List (String × Setting))
deriving Inhabited

/-- How numbers are shown where a text is wanted: always positionally, a whole number without a
point. A tie goes away from zero. -/
def Setting.numberFormat : DecimalFormat where
  tie := .away
  positional := none
  wholeMark := ""
  infinite := "inf"
  notANumber := "NaN"

namespace Setting

/-! ### Filling the tree -/

/-- The entries of a table; none of any other value. -/
def entries : Setting → List (String × Setting)
  | table es => es
  | _ => []

def get? (s : Setting) (key : String) : Option Setting :=
  (s.entries.find? fun e => e.1 == key).map (·.2)

/-- A table with another value for a key. What is no table becomes one. -/
def put (s : Setting) (key : String) (value : Setting) : Setting :=
  if (s.get? key).isSome then
    table (s.entries.map fun e => if e.1 == key then (key, value) else e)
  else table (s.entries ++ [(key, value)])

mutual

/-- A tree overlaid with another: tables key by key, anything else as a whole. -/
def overlay : (below above : Setting) → Setting
  | below, table es => overlayEntries (table below.entries) es
  | _, above => above

def overlayEntries : (below : Setting) → (above : List (String × Setting)) → Setting
  | below, [] => below
  | below, (key, value) :: rest =>
    overlayEntries (below.put key (overlay ((below.get? key).getD unset) value)) rest

end

/-- A step from a value into its inside. -/
inductive Step where
  | key (name : String)
  | index (i : Int)
deriving DecidableEq, Inhabited, Repr

/-- A place in a list, filled up as far as needed. A negative index counts from the end. -/
def placed (items : List Setting) (i : Int) (change : Setting → Setting) : List Setting :=
  let n : Nat := if 0 ≤ i then i.toNat else items.length - min i.natAbs items.length
  let filled := items ++ List.replicate (n + 1 - items.length) unset
  filled.modify n change

/-- A tree with the value at the end of a path overlaid. What stands in the way of the path is
replaced by a table or a list. -/
def overlayAt (value : Setting) : List Step → Setting → Setting
  | [], s => s.overlay value
  | [.index i], s =>
    match s with
    | list items => list (placed items i fun _ => value)
    | _ => list (placed [] i fun _ => value)
  | .key name :: rest, s => s.put name (overlayAt value rest ((s.get? name).getD unset))
  | .index i :: rest, s =>
    match s with
    | list items => list (placed items i (overlayAt value rest))
    | _ => list (placed [] i (overlayAt value rest))

/-! ### Paths -/

def isNameChar (c : Char) : Bool :=
  ('a' ≤ c && c ≤ 'z') || ('A' ≤ c && c ≤ 'Z') || ('0' ≤ c && c ≤ '9') ||
  c == ' ' || c == '_' || c == '-'

/-- The steps behind the first name of a path: names behind points and numbers in brackets. -/
def readSteps : (fuel : Nat) → List Char → Option (List Step)
  | _, [] => some []
  | 0, _ => none
  | fuel + 1, '.' :: cs =>
    match cs.takeWhile isNameChar with
    | [] => none
    | name => (readSteps fuel (cs.dropWhile isNameChar)).map (.key (String.ofList name) :: ·)
  | fuel + 1, '[' :: cs =>
    let isBlank (c : Char) : Bool := c == ' ' || c == '\t'
    let cs := cs.dropWhile isBlank
    let (negative, cs) := match cs with
      | '-' :: cs => (true, cs)
      | cs => (false, cs)
    match cs.takeWhile Char.isDigit, (cs.dropWhile Char.isDigit).dropWhile isBlank with
    | [], _ => none
    | ds, ']' :: rest =>
      let n : Int := Literal.digitsValue ds
      (readSteps fuel rest).map (.index (if negative then -n else n) :: ·)
    | _, _ => none
  | _, _ => none

/-- The path that a key of a source stands for. A key that is no path stands for itself. -/
def pathOf (key : String) : List Step :=
  let cs := key.toList
  match cs.takeWhile isNameChar with
  | [] => [.key key]
  | name =>
    match readSteps cs.length (cs.dropWhile isNameChar) with
    | some rest => .key (String.ofList name) :: rest
    | none => [.key key]

/-- A tree with the keys of one more source, each taken as a path. -/
def addSource (s : Setting) (source : List (String × Setting)) : Setting :=
  source.foldl (fun s e => overlayAt e.2 (pathOf e.1) s) s

/-! ### Reading fields -/

def asText? : Setting → Option String
  | text s => some s
  | bool b => some (if b then "true" else "false")
  | int n => some (toString n)
  | float f => some (numberFormat.floatText f)
  | _ => none

/-- The value of a text that is a 64-bit count in decimal digits, with or without a plus sign. -/
def countOfText? (s : String) : Option Nat :=
  let cs := match s.toList with
    | '+' :: cs => cs
    | cs => cs
  if cs.isEmpty || !cs.all Char.isDigit then none
  else
    let n := Literal.digitsValue cs
    if n < UInt64.size then some n else none

/-- A floating-point number rounded to a 64-bit count: a half goes away from zero, and what does not
fit goes to the nearest count. -/
def countOfFloat (f : Float) : Nat := f.round.toUInt64.toNat

/-- The 64-bit count of a value: words for yes and no are one and zero. -/
def asCount? : Setting → Option Nat
  | int n => if 0 ≤ n then some n.toNat else none
  | float f => some (countOfFloat f)
  | bool b => some (if b then 1 else 0)
  | text s =>
    let word := String.ofList (s.toList.map Char.toLower)
    if word ∈ ["true", "on", "yes"] then some 1
    else if word ∈ ["false", "off", "no"] then some 0
    else countOfText? s
  | _ => none

/-- The count of a value, if it is below a bound. -/
def asBounded? (bound : Nat) (s : Setting) : Option Nat :=
  s.asCount?.bind fun n => if n < bound then some n else none

def asOption? {α : Type} (value : Setting → Option α) : Setting → Option (Option α)
  | unset => some none
  | s => (value s).map some

/-- The fields of a section by name: from a table, or from a list in their order. -/
def fields? (names : List String) : Setting → Option (List (String × Setting))
  | table es => some es
  | list items => some (names.zip items)
  | _ => none

def field? {α : Type} (fields : List (String × Setting)) (name : String)
    (value : Setting → Option α) (default : α) : Option α :=
  match fields.find? fun e => e.1 == name with
  | some e => value e.2
  | none => some default

end Setting

/-! ### The sections -/

def JobConfig.ofSetting? (s : Setting) : Option JobConfig := do
  let d : JobConfig := {}
  let f ← s.fields? ["placeholder_password", "batch_size", "max_depth", "max_in_flight",
    "max_passes", "journal_dir"]
  let placeholderPassword ←
    Setting.field? f "placeholder_password" Setting.asText? d.placeholderPassword
  let batchSize ← Setting.field? f "batch_size" Setting.asCount? d.batchSize
  let maxDepth ← Setting.field? f "max_depth" (Setting.asBounded? UInt32.size) d.maxDepth.toNat
  let maxInFlight ← Setting.field? f "max_in_flight" Setting.asCount? d.maxInFlight
  let maxPasses ← Setting.field? f "max_passes" (Setting.asBounded? UInt32.size) d.maxPasses
  let journalDir ←
    Setting.field? f "journal_dir" (Setting.asOption? Setting.asText?) d.journalDir
  return { placeholderPassword, batchSize, maxDepth := .ofNat maxDepth, maxInFlight, maxPasses,
           journalDir }

def GraphConfig.ofSetting? (s : Setting) : Option GraphConfig := do
  let d : GraphConfig := {}
  let f ← s.fields? ["uri", "user", "password", "max_connections", "fetch_size"]
  let uri ← Setting.field? f "uri" Setting.asText? d.uri
  let user ← Setting.field? f "user" Setting.asText? d.user
  let password ← Setting.field? f "password" Setting.asText? d.password
  let maxConnections ←
    Setting.field? f "max_connections" (Setting.asBounded? UInt32.size) d.maxConnections
  let fetchSize ← Setting.field? f "fetch_size" Setting.asCount? d.fetchSize
  return { uri, user, password, maxConnections, fetchSize }

def ScheduleConfig.ofSetting? (s : Setting) : Option ScheduleConfig := do
  let d : ScheduleConfig := {}
  let f ← s.fields? ["interval_secs"]
  let intervalSecs ← Setting.field? f "interval_secs" Setting.asCount? d.intervalSecs
  return { intervalSecs }

def SyncConfig.ofSetting? (s : Setting) : Option SyncConfig := do
  let d : SyncConfig := {}
  let f ← s.fields? ["neo4j", "jobs", "schedule"]
  let neo4j ← Setting.field? f "neo4j" GraphConfig.ofSetting? d.neo4j
  let jobs ← Setting.field? f "jobs" JobConfig.ofSetting? d.jobs
  let schedule ← Setting.field? f "schedule" ScheduleConfig.ofSetting? d.schedule
  return { neo4j, jobs, schedule }

end Downline
