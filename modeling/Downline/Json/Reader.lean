import Downline.HexDigit
import Downline.Json.Value

/-!
Reading JSON strictly: the whole text must be one document, with no comments, no trailing commas and
no bare control characters in strings. A reader takes a text apart from the front and answers what
it read together with the text behind it.
-/

namespace Downline.Json

def isBlank (c : Char) : Bool :=
  c == ' ' || c == '\t' || c == '\n' || c == '\r'

/-- The text from the first character that is no blank. -/
def skipBlanks (cs : List Char) : List Char := cs.dropWhile isBlank

/-! ### Strings -/

/-- One element of a string: a character, or an escaped half of a surrogate pair. -/
inductive Piece where
  | char (c : Char)
  | half (unit : Nat)

/-- The element that an escaped 16-bit unit stands for. -/
def Piece.ofUnit (u : Nat) : Piece :=
  if 0xD800 ≤ u && u < 0xE000 then .half u else .char (Char.ofNat u)

def shortEscape? (c : Char) : Option Char :=
  if c = '"' then some '"'
  else if c = '\\' then some '\\'
  else if c = '/' then some '/'
  else if c = 'b' then some '\x08'
  else if c = 'f' then some '\x0c'
  else if c = 'n' then some '\n'
  else if c = 'r' then some '\r'
  else if c = 't' then some '\t'
  else none

def unit? (a b c d : Char) : Option Nat := do
  let a ← HexDigit.ofChar? a
  let b ← HexDigit.ofChar? b
  let c ← HexDigit.ofChar? c
  let d ← HexDigit.ofChar? d
  return HexDigit.value [a, b, c, d]

/-- The elements of a string up to its closing quote. -/
def readPieces : List Char → Option (List Piece × List Char)
  | [] => none
  | '"' :: rest => some ([], rest)
  | '\\' :: 'u' :: a :: b :: c :: d :: rest => do
    let u ← unit? a b c d
    let (ps, rest) ← readPieces rest
    return (Piece.ofUnit u :: ps, rest)
  | '\\' :: e :: rest => do
    let c ← shortEscape? e
    let (ps, rest) ← readPieces rest
    return (.char c :: ps, rest)
  | c :: rest =>
    if c.toNat < 32 || c = '\\' then none
    else do
      let (ps, rest) ← readPieces rest
      return (.char c :: ps, rest)

/-- The text that the elements of a string stand for: a high half takes the low half right behind it,
and a half that is left alone stands for no character. -/
def assemble : List Piece → Option (List Char)
  | [] => some []
  | .char c :: rest => (assemble rest).map (c :: ·)
  | .half high :: .half low :: rest =>
    if high < 0xDC00 && 0xDC00 ≤ low then
      (assemble rest).map (Char.ofNat (0x10000 + (high - 0xD800) * 1024 + (low - 0xDC00)) :: ·)
    else none
  | .half _ :: _ => none

def readString (cs : List Char) : Option (Option String × List Char) := do
  let (ps, rest) ← readPieces cs
  return ((assemble ps).map String.ofList, rest)

/-! ### Numbers -/

/-- The digits at the front, and the text behind them. -/
def takeDigits (cs : List Char) : List Char × List Char :=
  (cs.takeWhile Char.isDigit, cs.dropWhile Char.isDigit)

/-- A whole part: a zero alone, or digits that start with another one. -/
def readWhole : List Char → Option (List Char × List Char)
  | '0' :: rest => some (['0'], rest)
  | c :: rest =>
    if c.isDigit then
      let (ds, rest) := takeDigits rest
      some (c :: ds, rest)
    else none
  | [] => none

/-- A fraction with its point, if one stands here. A point without digits is none. -/
def readFraction (cs : List Char) : List Char × List Char :=
  match cs with
  | '.' :: rest =>
    match takeDigits rest with
    | ([], _) => ([], cs)
    | (ds, rest) => ('.' :: ds, rest)
  | _ => ([], cs)

/-- An exponent with its mark and sign, if one stands here. -/
def readExponent (cs : List Char) : List Char × List Char :=
  match cs with
  | e :: rest =>
    if e = 'e' || e = 'E' then
      let (sign, rest) := match rest with
        | '+' :: rest => (['+'], rest)
        | '-' :: rest => (['-'], rest)
        | rest => ([], rest)
      match takeDigits rest with
      | ([], _) => ([], cs)
      | (ds, rest) => (e :: (sign ++ ds), rest)
    else ([], cs)
  | [] => ([], cs)

/-- A number as it is written. -/
def readNumber (cs : List Char) : Option (List Char × List Char) := do
  let (sign, cs) := match cs with
    | '-' :: rest => (['-'], rest)
    | cs => ([], cs)
  let (whole, cs) ← readWhole cs
  let (fraction, cs) := readFraction cs
  let (exponent, cs) := readExponent cs
  return (sign ++ whole ++ fraction ++ exponent, cs)

/-! ### Documents -/

mutual

/-- A document after any blanks. Every call uses up one unit of fuel. -/
def readValue : (fuel : Nat) → List Char → Option (Json × List Char)
  | 0, _ => none
  | fuel + 1, cs =>
    match skipBlanks cs with
    | 'n' :: 'u' :: 'l' :: 'l' :: rest => some (.null, rest)
    | 't' :: 'r' :: 'u' :: 'e' :: rest => some (.bool true, rest)
    | 'f' :: 'a' :: 'l' :: 's' :: 'e' :: rest => some (.bool false, rest)
    | '"' :: rest => (readString rest).map fun (s, rest) => (.string s, rest)
    | '[' :: rest =>
      match skipBlanks rest with
      | ']' :: rest => some (.array [], rest)
      | rest => (readItems fuel rest).map fun (items, rest) => (.array items, rest)
    | '\x7b' :: rest =>
      match skipBlanks rest with
      | '\x7d' :: rest => some (.object [], rest)
      | rest => (readMembers fuel rest).map fun (members, rest) => (.object members, rest)
    | cs => (readNumber cs).map fun (literal, rest) => (.number (String.ofList literal), rest)

/-- The items of an array up to its end, at least one. -/
def readItems : (fuel : Nat) → List Char → Option (List Json × List Char)
  | 0, _ => none
  | fuel + 1, cs =>
    match readValue fuel cs with
    | none => none
    | some (j, rest) =>
      match skipBlanks rest with
      | ']' :: rest => some ([j], rest)
      | ',' :: rest => (readItems fuel rest).map fun (items, rest) => (j :: items, rest)
      | _ => none

/-- The members of an object up to its end, at least one. -/
def readMembers : (fuel : Nat) → List Char → Option (List (Option String × Json) × List Char)
  | 0, _ => none
  | fuel + 1, cs =>
    match skipBlanks cs with
    | '"' :: rest =>
      match readString rest with
      | none => none
      | some (key, rest) =>
        match skipBlanks rest with
        | ':' :: rest =>
          match readValue fuel rest with
          | none => none
          | some (j, rest) =>
            match skipBlanks rest with
            | '\x7d' :: rest => some ([(key, j)], rest)
            | ',' :: rest =>
              (readMembers fuel rest).map fun (members, rest) => ((key, j) :: members, rest)
            | _ => none
        | _ => none
    | _ => none

end

/-- The document that a text is, with blanks around it. Two units of fuel a character always do. -/
def ofChars? (cs : List Char) : Option Json := do
  let (j, rest) ← readValue (2 * cs.length + 2) cs
  if skipBlanks rest = [] then some j else none

def ofString? (s : String) : Option Json := ofChars? s.toList

end Downline.Json
