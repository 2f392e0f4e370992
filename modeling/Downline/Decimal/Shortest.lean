/-!
The shortest decimal that stands for a binary floating-point number: of all decimals that round to
the number it has the fewest digits, and of those it is the nearest. Also the ways to write it down.
-/

namespace Downline

/-- The decimal `digits * 10 ^ exponent`. -/
structure Decimal where
  digits : Nat
  exponent : Int
deriving DecidableEq, Inhabited, Repr

namespace Decimal

/-- A positive rational number. -/
structure Ratio where
  num : Nat
  den : Nat

/-- The number `m * 2 ^ q`. -/
def Ratio.ofBinary (m : Nat) (q : Int) : Ratio :=
  if 0 ≤ q then ⟨m * Nat.pow 2 q.toNat, 1⟩ else ⟨m, Nat.pow 2 (-q).toNat⟩

/-- The number times `10 ^ k`. -/
def Ratio.scale (r : Ratio) (k : Int) : Ratio :=
  if 0 ≤ k then ⟨r.num * Nat.pow 10 k.toNat, r.den⟩ else ⟨r.num, r.den * Nat.pow 10 (-k).toNat⟩

def Ratio.lt (a b : Ratio) : Bool := decide (a.num * b.den < b.num * a.den)

/-- The numbers that round to a given one. -/
structure Interval where
  low : Ratio
  mid : Ratio
  high : Ratio
  /-- Whether the two ends round to the number as well. -/
  closed : Bool

/-- The interval of `m * 2 ^ q`. Below a power of two the neighbour is only half as far away, unless
the numbers there are as dense as they get. -/
def Interval.ofBinary (m : Nat) (q : Int) (halfGapBelow : Bool) : Interval where
  low := .ofBinary (if halfGapBelow then 4 * m - 1 else 4 * m - 2) (q - 2)
  mid := .ofBinary (4 * m) (q - 2)
  high := .ofBinary (4 * m + 2) (q - 2)
  closed := m % 2 == 0

def Interval.holds (i : Interval) (r : Ratio) : Bool :=
  if i.closed then !r.lt i.low && !i.high.lt r else i.low.lt r && r.lt i.high

/-- The decade of a number: the `k` with `10 ^ k ≤ r < 10 ^ (k + 1)`. The guess is off by at most
one. -/
def decade (r : Ratio) : Int :=
  let guess := ((r.num.log2 : Int) - (r.den.log2 : Int)) * 30103 / 100000
  let below (k : Int) : Bool := r.lt (Ratio.scale ⟨1, 1⟩ k)
  if below guess then guess - 1
  else if !below (guess + 1) then guess + 1
  else guess

/-- Which of two equally near decimals is taken. -/
inductive Tie where
  /-- The one with an even last digit. -/
  | even
  | away
deriving DecidableEq, Inhabited, Repr

/-- Whether the lower of two neighbours is taken, when both are equally near. -/
def Tie.takesLower : Tie → (lower : Nat) → Bool
  | even, lower => lower % 2 == 0
  | away, _ => false

/-- The best decimal with its last digit at `10 ^ k`, if one lies in the interval: the nearer
neighbour of the number on that grid, and of two equally near ones the one that the tie picks. -/
def onGrid? (tie : Tie) (i : Interval) (k : Int) : Option Decimal :=
  let v := i.mid.scale (-k)
  let below := v.num / v.den
  let inside (d : Nat) : Bool := i.holds (Ratio.scale ⟨d, 1⟩ k)
  let downIn := below != 0 && inside below
  let upIn := inside (below + 1)
  let twice := 2 * (v.num % v.den)
  if downIn && upIn then
    if twice < v.den || (twice == v.den && tie.takesLower below) then some ⟨below, k⟩
    else some ⟨below + 1, k⟩
  else if downIn then some ⟨below, k⟩
  else if upIn then some ⟨below + 1, k⟩
  else none

/-- The first grid with a decimal in the interval, from the coarsest on. -/
def firstOnGrid (tie : Tie) (i : Interval) (top : Int) : (tries : Nat) → (n : Nat) → Decimal
  | 0, _ => ⟨0, 0⟩
  | tries + 1, n =>
    match onGrid? tie i (top - n) with
    | some d => d
    | none => firstOnGrid tie i top tries (n + 1)

/-- The shortest decimal for `m * 2 ^ q`; seventeen digits always do. -/
def shortest (tie : Tie) (m : Nat) (q : Int) (halfGapBelow : Bool) : Decimal :=
  let i := Interval.ofBinary m q halfGapBelow
  firstOnGrid tie i (decade i.mid) 18 0

/-- A decimal without the zeros at its end. -/
def trim (d : Decimal) : Decimal :=
  go 20 d
where
  go : Nat → Decimal → Decimal
    | 0, d => d
    | n + 1, d =>
      if d.digits != 0 && d.digits % 10 == 0 then go n ⟨d.digits / 10, d.exponent + 1⟩ else d

end Decimal

/-- A floating-point number taken apart. -/
inductive FloatParts where
  | finite (negative : Bool) (m : Nat) (q : Int) (halfGapBelow : Bool)
  | infinite (negative : Bool)
  | notANumber
deriving DecidableEq, Inhabited, Repr

/-- Sign, significand and exponent of a floating-point number. -/
def FloatParts.of (f : Float) : FloatParts :=
  let bits := f.toBits.toNat
  let negative := bits / Nat.pow 2 63 == 1
  let e : Nat := bits / Nat.pow 2 52 % 2048
  let frac := bits % Nat.pow 2 52
  if e == 2047 then if frac == 0 then .infinite negative else .notANumber
  else if e == 0 then .finite negative frac (-1074) false
  else .finite negative (Nat.pow 2 52 + frac) ((e : Int) - 1075) (frac == 0 && 1 < e)

/-- How decimals are written: which way ties go, where positional notation ends, and what marks a
whole number. -/
structure DecimalFormat where
  tie : Decimal.Tie
  /-- The decades written positionally, from the first up to but without the second; all if unset. -/
  positional : Option (Int × Int)
  wholeMark : String
  infinite : String
  notANumber : String

namespace DecimalFormat

private def zeros (n : Nat) : String := "".pushn '0' n

/-- Digits with a point after the first `k` of them, for any `k`. -/
def positionalText (fmt : DecimalFormat) (digits : String) (k : Int) : String :=
  if k ≤ 0 then "0." ++ zeros (-k).toNat ++ digits
  else if (digits.length : Int) ≤ k then
    digits ++ zeros (k - digits.length).toNat ++ fmt.wholeMark
  else
    let cs := digits.toList
    String.ofList (cs.take k.toNat) ++ "." ++ String.ofList (cs.drop k.toNat)

/-- Digits with a point after the first of them, and the decade as an exponent with its sign. -/
def exponentText (digits : String) (decade : Int) : String :=
  let cs := digits.toList
  let head := String.ofList (cs.take 1)
  let tail := if cs.length ≤ 1 then "" else "." ++ String.ofList (cs.drop 1)
  let sign := if decade < 0 then "-" else "+"
  head ++ tail ++ "e" ++ sign ++ toString decade.natAbs

/-- The text of a decimal that is not zero. -/
def text (fmt : DecimalFormat) (d : Decimal) : String :=
  let d := d.trim
  let digits := toString d.digits
  let decade := d.exponent + digits.length - 1
  let plain := match fmt.positional with
    | none => true
    | some (low, high) => decide (low ≤ decade) && decide (decade < high)
  if plain then fmt.positionalText digits (decade + 1) else exponentText digits decade

def floatText (fmt : DecimalFormat) (f : Float) : String :=
  match FloatParts.of f with
  | .notANumber => fmt.notANumber
  | .infinite negative => (if negative then "-" else "") ++ fmt.infinite
  | .finite negative m q halfGapBelow =>
    let sign := if negative then "-" else ""
    if m = 0 then sign ++ "0" ++ fmt.wholeMark
    else sign ++ fmt.text (Decimal.shortest fmt.tie m q halfGapBelow)

end DecimalFormat

end Downline
