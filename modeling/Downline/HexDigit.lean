/-!
Hexadecimal digits: written in lower case, read in either case.
-/

namespace Downline

/-- A hexadecimal digit, by its value. -/
abbrev HexDigit := Fin 16

namespace HexDigit

def char (d : HexDigit) : Char :=
  if d.val < 10 then Char.ofNat (48 + d.val) else Char.ofNat (87 + d.val)

def ofChar? (c : Char) : Option HexDigit :=
  if c.isDigit then some (Fin.ofNat 16 (c.toNat - 48))
  else if 'a' ≤ c && c ≤ 'f' then some (Fin.ofNat 16 (c.toNat - 87))
  else if 'A' ≤ c && c ≤ 'F' then some (Fin.ofNat 16 (c.toNat - 55))
  else none

theorem ofChar?_char (d : HexDigit) : ofChar? d.char = some d := by
  revert d
  decide

/-- The number that digits stand for, the highest first. -/
def value (ds : List HexDigit) : Nat := ds.foldl (fun n d => n * 16 + d.val) 0

/-- The digits of a number up to a count, the highest first. -/
def ofNat (count n : Nat) : List HexDigit :=
  (List.range count).map fun i => Fin.ofNat 16 (n / Nat.pow 16 (count - 1 - i))

end HexDigit

end Downline
