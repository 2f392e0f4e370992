/-!
JSON documents. A number is kept as it is written, and so is the difference between a string that
stands for a text and one with an escape that stands for no character.
-/

namespace Downline

/-- A JSON document. -/
inductive Json where
  | null
  | bool (b : Bool)
  /-- A number as it is written. -/
  | number (literal : String)
  /-- A string; `none` for one with an escape that stands for no character. -/
  | string (text : Option String)
  | array (items : List Json)
  | object (members : List (Option String × Json))
deriving Inhabited

namespace Json

/-- A string that stands for a text. -/
def text (s : String) : Json := string (some s)

/-- A text, or null where it is unset. -/
def optText : Option String → Json
  | some s => text s
  | none => null

def nat (n : Nat) : Json := number (toString n)

def int (n : Int) : Json := number (toString n)

/-- An object with these members in this order. -/
def obj (members : List (String × Json)) : Json :=
  object (members.map fun m => (some m.1, m.2))

def texts (ss : List String) : Json := array (ss.map text)

mutual

def depth : Json → Nat
  | array items => depthItems items + 1
  | object members => depthMembers members + 1
  | _ => 0

def depthItems : List Json → Nat
  | [] => 0
  | j :: rest => max j.depth (depthItems rest)

def depthMembers : List (Option String × Json) → Nat
  | [] => 0
  | (_, j) :: rest => max j.depth (depthMembers rest)

end

end Json

end Downline
