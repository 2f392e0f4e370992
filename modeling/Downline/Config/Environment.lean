import Downline.Config.Setting

/-!
Settings from environment variables. A variable `LINEAGE__JOBS__BATCH_SIZE` sets `batch_size` in the
section `jobs`, in any case, and its text counts as the number or the truth value that it spells.
-/

namespace Downline

abbrev Environment := List (String × String)

namespace Environment

/-- What the name of a variable with a setting starts with, in lower case. -/
def mark : List Char := "lineage__".toList

/-- A name with every two underscores in a row replaced by a point. -/
def dotted : List Char → List Char
  | '_' :: '_' :: rest => '.' :: dotted rest
  | c :: rest => c :: dotted rest
  | [] => []

def path? (name : String) : Option String :=
  let cs := name.toList.map Char.toLower
  if mark.isPrefixOf cs then some (String.ofList (dotted (cs.drop mark.length))) else none

/-- Whether the parts of a number are as they should: digits before or behind the point, and digits
in the exponent. -/
def isDecimal (cs : List Char) : Bool :=
  let l := Literal.ofChars cs
  let body := (Literal.splitSign cs).2.drop (l.whole.length + (l.fraction.map (·.length + 1)).getD 0)
  let mantissa := !l.whole.isEmpty || !(l.fraction.getD []).isEmpty
  let exponent := match body, l.exponent with
    | [], _ => true
    | c :: _, some (_, ds) => (c == 'e' || c == 'E') && !ds.isEmpty && ds.all Char.isDigit
    | _, none => false
  mantissa && exponent

/-- The floating-point number that a text spells: in digits, or as a word. -/
def float? (cs : List Char) : Option Float :=
  let (negative, body) := Literal.splitSign cs
  let word := String.ofList (body.map Char.toLower)
  if word = "inf" || word = "infinity" then some (Literal.signed negative (1.0 / 0.0))
  else if word = "nan" then some (Literal.signed negative (0.0 / 0.0))
  else if isDecimal cs then some (Literal.ofChars cs).nearest
  else none

def valueOf (s : String) : Setting :=
  let word := String.ofList (s.toList.map Char.toLower)
  if word = "true" then .bool true
  else if word = "false" then .bool false
  else match Literal.int64? s.toList with
  | some n => .int n
  | none =>
    match float? s.toList with
    | some f => .float f
    | none => .text s

/-- The settings that variables give, by their paths. -/
def settings (env : Environment) : List (String × Setting) :=
  env.filterMap fun v => (path? v.1).map fun path => (path, valueOf v.2)

end Environment

end Downline
