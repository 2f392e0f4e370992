import Downline.Decimal.Literal
import Downline.HexDigit

/-!
Hosts in addresses: names, and numeric addresses in four or in eight groups. Which names are allowed
depends on the scheme in front of them.
-/

namespace Downline.Database

/-- Why a text is no address. -/
inductive AddressFault where
  | noScheme
  | noHost
  | hostName
  /-- A character that no host name may hold. -/
  | hostCharacter
  | service
  /-- Four numeric groups that make no address. -/
  | fourGroups
  /-- Numeric groups in brackets that make no address. -/
  | eightGroups
deriving DecidableEq, Inhabited, Repr

/-- The message shown for a text that is no address. -/
def AddressFault.message : AddressFault → String
  | noScheme => "relative URL without a base"
  | noHost => "empty host"
  | hostName => "invalid international domain name"
  | hostCharacter => "invalid domain character"
  | service => "invalid port number"
  | fourGroups => "invalid IPv4 address"
  | eightGroups => "invalid IPv6 address"

namespace Host

/-- The parts of a text between the places where a character stands. -/
def parts (separator : Char) : List Char → List (List Char)
  | [] => [[]]
  | c :: cs =>
    match parts separator cs with
    | [] => [[c]]
    | p :: ps => if c = separator then [] :: p :: ps else (c :: p) :: ps

/-! ### Numeric groups in brackets -/

/-- Whether a text is a group of up to four hexadecimal digits. -/
def isHexGroup (cs : List Char) : Bool :=
  1 ≤ cs.length && cs.length ≤ 4 && cs.all fun c => (HexDigit.ofChar? c).isSome

/-- Whether a text is a number below 256, without a zero in front. -/
def isOctet (cs : List Char) : Bool :=
  !cs.isEmpty && cs.length ≤ 3 && cs.all Char.isDigit && (cs.head? != some '0' || cs == ['0']) &&
    Literal.digitsValue cs < 256

/-- Whether a text is four numbers below 256 with points between them. -/
def isOctets (cs : List Char) : Bool :=
  let ps := parts '.' cs
  ps.length == 4 && ps.all isOctet

/-- How many groups a text is in which every group stands between two colons. The last two of them
may be written as four numbers, where that is allowed. -/
def groupCount? (octets : Bool) : List (List Char) → Option Nat
  | [] => some 0
  | [p] => if isHexGroup p then some 1 else if octets && isOctets p then some 2 else none
  | p :: ps => if isHexGroup p then (groupCount? octets ps).map (· + 1) else none

/-- The groups of a text; none of the empty one. -/
def groups (cs : List Char) : List (List Char) := if cs.isEmpty then [] else parts ':' cs

/-- The text before the first two colons in a row, and the text behind them. -/
def gap? : List Char → Option (List Char × List Char)
  | ':' :: ':' :: rest => some ([], rest)
  | c :: rest => (gap? rest).map fun g => (c :: g.1, g.2)
  | [] => none

/-- Whether a text is eight groups; two colons in a row stand for one or more groups of zero. -/
def isEightGroups (cs : List Char) : Bool :=
  match gap? cs with
  | none => groupCount? true (groups cs) == some 8
  | some (before, behind) =>
    match groupCount? false (groups before), groupCount? true (groups behind) with
    | some m, some n => m + n ≤ 7
    | _, _ => false

/-! ### Four numeric groups -/

/-- The value of a number in decimal digits, in octal ones behind a zero, or in hexadecimal ones behind
`0x`. -/
def number? : List Char → Option Nat
  | [] => none
  | '0' :: 'x' :: ds => (ds.mapM HexDigit.ofChar?).map HexDigit.value
  | '0' :: d :: ds =>
    if (d :: ds).all fun c => '0' ≤ c && c ≤ '7' then
      some ((d :: ds).foldl (fun n c => n * 8 + (c.toNat - 48)) 0)
    else none
  | ds => if ds.all Char.isDigit then some (Literal.digitsValue ds) else none

/-- The parts of a name between its points, without an empty one at the end. -/
def labels (cs : List Char) : List (List Char) :=
  let ps := parts '.' cs
  if 1 < ps.length && ps.getLast? == some [] then ps.dropLast else ps

/-- Whether a name counts as numeric, by its last part. -/
def endsInNumber (cs : List Char) : Bool :=
  match (labels cs).getLast? with
  | some l => !l.isEmpty && (l.all Char.isDigit || (number? l).isSome)
  | none => false

/-- Whether a numeric name is an address: at most four numbers below 256, the last of which may fill
the groups that are missing. -/
def isFourGroups (cs : List Char) : Bool :=
  let ps := labels cs
  ps.length ≤ 4 &&
    match (ps.mapM number?).map List.reverse with
    | some (last :: others) =>
      last < Nat.pow 256 (4 - others.length) && others.all (· < 256)
    | _ => false

/-! ### Names -/

/-- The bytes of a text, with those put in that are written as a percent sign and two digits. -/
def percentDecoded : List UInt8 → List UInt8
  | 37 :: a :: b :: rest =>
    match [a, b].mapM fun d => HexDigit.ofChar? (Char.ofNat d.toNat) with
    | some ds => UInt8.ofNat (HexDigit.value ds) :: percentDecoded rest
    | none => 37 :: percentDecoded (a :: b :: rest)
  | b :: rest => b :: percentDecoded rest
  | [] => []

/-- The characters in which a character of a name is looked up. Outside ASCII this covers the wide
forms of ASCII characters, the points of other scripts, and marks that are left out. -/
def folded (c : Char) : List Char :=
  let n := c.toNat
  if n < 128 then [c.toLower]
  else if 0xFF01 ≤ n && n ≤ 0xFF5E then [(Char.ofNat (n - 0xFEE0)).toLower]
  else if n = 0x3002 || n = 0xFF61 then ['.']
  else if n = 0xA0 || n = 0x3000 then [' ']
  else if n = 0xAD || n = 0x200B || n = 0x2060 || n = 0xFEFF then []
  else [c]

def isRefused (c : Char) : Bool :=
  c.toNat ≤ 32 || (127 ≤ c.toNat && c.toNat < 160) || c.toNat = 0xFFFD ||
    "%#/:<>?@[\\]^|".toList.contains c

/-- Whether a part of a name that is marked as the written form of other letters can be such a form.
The letters themselves are not looked at. -/
def isMarkedForm (l : List Char) : Bool :=
  if "xn--".toList.isPrefixOf l then
    let ds := l.drop 4
    !ds.isEmpty && ds.getLast? != some '-' && ds.all fun c => c.isAlphanum || c == '-'
  else true

def lookedUp? (cs : List Char) : Option (List Char) := do
  let bytes := percentDecoded (String.ofList cs).toUTF8.toList
  let name := (← String.fromUTF8? ⟨bytes.toArray⟩).toList.flatMap folded
  if name.any isRefused || !(labels name).all isMarkedForm then none
  return name

/-- Whether a name may not hold a character, where names are taken as they are written. -/
def isForbidden (c : Char) : Bool := "\x00\t\n\r #/:<>?@[\\]^|".toList.contains c

def ofBrackets (cs : List Char) : Except AddressFault String :=
  if cs.getLast? = some ']' && isEightGroups (cs.tail.dropLast) then .ok (String.ofList cs)
  else .error .eightGroups

/-- Reads a host that is taken as it is written. It may be empty. -/
def ofPlain (cs : List Char) : Except AddressFault String :=
  if cs.head? = some '[' then ofBrackets cs
  else if cs.any isForbidden then .error .hostCharacter
  else .ok (String.ofList cs)

def ofLookedUp (cs : List Char) : Except AddressFault String :=
  if cs.head? = some '[' then ofBrackets cs
  else
    match lookedUp? cs with
    | none => .error .hostName
    | some [] => .error .noHost
    | some name =>
      if endsInNumber name && !isFourGroups name then .error .fourGroups
      else .ok (String.ofList name)

end Host

end Downline.Database
