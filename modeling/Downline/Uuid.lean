import Downline.HexDigit

/-!
Universally unique identifiers: 32 hexadecimal digits, written in lower case and in five groups.
-/

namespace Downline

/-- An identifier of 32 hexadecimal digits. -/
structure Uuid where
  digits : Vector HexDigit 32
deriving DecidableEq, Inhabited, Repr

namespace Uuid

def groupSizes : List Nat := [8, 4, 4, 4, 12]

def grouped : List Nat → List Char → List Char
  | [], _ => []
  | [n], cs => cs.take n
  | n :: rest, cs => cs.take n ++ '-' :: grouped rest (cs.drop n)

/-- The characters without the hyphens between groups; `none` if the groups are not as they should. -/
def ungrouped? : List Nat → List Char → Option (List Char)
  | [], cs => if cs = [] then some [] else none
  | [n], cs => if cs.length = n then some cs else none
  | n :: rest, cs =>
    match cs.drop n with
    | '-' :: behind => (ungrouped? rest behind).map (cs.take n ++ ·)
    | _ => none

def chars (u : Uuid) : List Char :=
  grouped groupSizes (u.digits.toList.map HexDigit.char)

def text (u : Uuid) : String := String.ofList u.chars

/-- The identifier of 32 digits. -/
def ofDigits? (cs : List Char) : Option Uuid := do
  let ds ← cs.mapM HexDigit.ofChar?
  if h : ds.toArray.size = 32 then some ⟨⟨ds.toArray, h⟩⟩ else none

/-- The mark before the groups of an identifier written as a name. -/
def nameMark : List Char := "urn:uuid:".toList

/-- The identifier that a text gives: its digits alone, or its groups, which may stand in braces or
behind a mark. -/
def ofChars? (cs : List Char) : Option Uuid :=
  if cs.length = 32 then ofDigits? cs
  else if cs.length = 36 then (ungrouped? groupSizes cs).bind ofDigits?
  else if cs.length = 38 && cs.head? == some '\x7b' && cs.getLast? == some '\x7d' then
    (ungrouped? groupSizes (cs.drop 1).dropLast).bind ofDigits?
  else if cs.length = 45 && cs.take 9 == nameMark then
    (ungrouped? groupSizes (cs.drop 9)).bind ofDigits?
  else none

def ofString? (s : String) : Option Uuid := ofChars? s.toList

def ofNat (n : Nat) : Uuid :=
  ⟨⟨(HexDigit.ofNat 32 n).toArray, by simp [HexDigit.ofNat]⟩⟩

end Uuid

end Downline
