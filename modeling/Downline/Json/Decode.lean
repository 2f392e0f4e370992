import Downline.Decimal.Literal
import Downline.Json.Value

/-!
Taking values out of JSON documents. A value that is looked at must be in order; one that nobody
looks at only has to be well written.
-/

namespace Downline.Json

/-- How numbers are written: positionally from `10 ^ -5` up to below `10 ^ 16`, always with a point or
an exponent. A tie goes to the even digit. -/
def floatFormat : DecimalFormat where
  tie := .even
  positional := some (-5, 16)
  wholeMark := ".0"
  infinite := "inf"
  notANumber := "NaN"

/-- A floating-point number; null where it is no number of that kind. -/
def float (f : Float) : Json :=
  match FloatParts.of f with
  | .finite .. => number (floatFormat.floatText f)
  | _ => null

/-! ### Single values -/

def asText? : Json → Option String
  | string s => s
  | _ => none

def asBool? : Json → Option Bool
  | bool b => some b
  | _ => none

/-- A whole number below a bound, written with digits alone. -/
def asNat? (bound : Nat) : Json → Option Nat
  | number literal =>
    let l := Literal.ofString literal
    if l.isWhole && !l.negative then
      let n := Literal.digitsValue l.whole
      if n < bound then some n else none
    else none
  | _ => none

/-- A 64-bit count. -/
def asCount? : Json → Option Nat := asNat? UInt64.size

def asFloat? : Json → Option Float
  | number literal => (Literal.ofString literal).scaledWord
  | _ => none

def asList? {α : Type} (item : Json → Option α) : Json → Option (List α)
  | array items => items.mapM item
  | _ => none

/-- An optional value: null, or a value. -/
def asOption? {α : Type} (value : Json → Option α) : Json → Option (Option α)
  | null => some none
  | j => (value j).map some

/-! ### Records -/

/-- The fields of a record that a document gives. -/
structure Fields where
  found : List (String × Json)
  /-- Whether the record is written as an array, where a field without a default cannot be left out. -/
  positional : Bool := false

/-- The members of an object with one of these names, in their order. Every key must stand for a
text. -/
def knownMembers? (names : List String) :
    List (Option String × Json) → Option (List (String × Json))
  | [] => some []
  | (none, _) :: _ => none
  | (some k, j) :: rest =>
    (knownMembers? names rest).map fun found => if names.contains k then (k, j) :: found else found

/-- Whether no name comes twice. -/
def distinctNames : List (String × Json) → Bool
  | [] => true
  | (k, _) :: rest => !rest.any (fun m => m.1 == k) && distinctNames rest

/-- The fields of a record: from an object, where unknown members are passed over and no known one may
come twice, or from an array of at most all fields in their order. -/
def fields? (names : List String) : Json → Option Fields
  | object members =>
    match knownMembers? names members with
    | some found => if distinctNames found then some { found } else none
    | none => none
  | array items =>
    if items.length ≤ names.length then some { found := names.zip items, positional := true }
    else none
  | _ => none

namespace Fields

def get? (f : Fields) (name : String) : Option Json :=
  (f.found.find? fun m => m.1 == name).map (·.2)

def required {α : Type} (f : Fields) (name : String) (value : Json → Option α) : Option α :=
  (f.get? name).bind value

/-- A field that may be null, and in an object missing. -/
def optional {α : Type} (f : Fields) (name : String) (value : Json → Option α) :
    Option (Option α) :=
  match f.get? name with
  | some j => asOption? value j
  | none => if f.positional then none else some none

def withDefault {α : Type} (f : Fields) (name : String) (value : Json → Option α) (default : α) :
    Option α :=
  match f.get? name with
  | some j => value j
  | none => some default

end Fields

/-! ### Values kept before they are understood -/

mutual

/-- Whether a document can be kept whole: every number is within range, every string stands for a
text, and there are at most `levels` levels of arrays and objects. -/
def isKeepable (levels : Nat) : Json → Bool
  | null => true
  | bool _ => true
  | number literal => ((Literal.ofString literal).scaledWord).isSome
  | string s => s.isSome
  | array items =>
    match levels with
    | 0 => false
    | n + 1 => keepableItems n items
  | object members =>
    match levels with
    | 0 => false
    | n + 1 => keepableMembers n members

def keepableItems (levels : Nat) : List Json → Bool
  | [] => true
  | j :: rest => isKeepable levels j && keepableItems levels rest

def keepableMembers (levels : Nat) : List (Option String × Json) → Bool
  | [] => true
  | (k, j) :: rest => k.isSome && isKeepable levels j && keepableMembers levels rest

end

/-- The most levels of arrays and objects that can be kept. -/
def maxLevels : Nat := 127

end Downline.Json
