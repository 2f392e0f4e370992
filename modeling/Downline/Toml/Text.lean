import Downline.HexDigit

/-!
Texts in TOML: in double quotes with escapes or in single quotes as they stand, on one line or, in
three quotes, over several. A reader takes a text apart from the front and answers what it read
together with the text behind it.
-/

namespace Downline.Toml

def isBlank (c : Char) : Bool := c == ' ' || c == '\t'

/-- The text from the first character that is no blank. -/
def skipBlanks (cs : List Char) : List Char := cs.dropWhile isBlank

/-- A character that may stand for itself in a comment or in quotes: no control character but the
tab. -/
def isPlain (c : Char) : Bool := c == '\t' || (32 ≤ c.toNat && c.toNat != 127)

/-- The text behind a line end. A carriage return alone is none. -/
def afterLineEnd? : List Char → Option (List Char)
  | '\n' :: rest => some rest
  | '\r' :: '\n' :: rest => some rest
  | _ => none

def skipBlankLines : List Char → List Char
  | '\n' :: rest => skipBlankLines rest
  | '\r' :: '\n' :: rest => skipBlankLines rest
  | c :: rest => if isBlank c then skipBlankLines rest else c :: rest
  | [] => []

/-- The character whose code is written in a number of hexadecimal digits. -/
def readCode (count : Nat) (cs : List Char) : Option (Char × List Char) := do
  let ds ← (cs.take count).mapM HexDigit.ofChar?
  let code := HexDigit.value ds
  if ds.length = count && code.isValidChar then some (Char.ofNat code, cs.drop count) else none

def readEscape : List Char → Option (Char × List Char)
  | '"' :: rest => some ('"', rest)
  | '\\' :: rest => some ('\\', rest)
  | 'b' :: rest => some ('\x08', rest)
  | 't' :: rest => some ('\t', rest)
  | 'n' :: rest => some ('\n', rest)
  | 'f' :: rest => some ('\x0c', rest)
  | 'r' :: rest => some ('\r', rest)
  | 'u' :: rest => readCode 4 rest
  | 'U' :: rest => readCode 8 rest
  | _ => none

/-- A text on one line up to its closing quote. Escapes count only in double quotes. -/
def readShort (quote : Char) : (fuel : Nat) → List Char → Option (List Char × List Char)
  | 0, _ => none
  | _, [] => none
  | fuel + 1, c :: rest =>
    if c = quote then some ([], rest)
    else if c = '\\' && quote = '"' then do
      let (e, rest) ← readEscape rest
      let (text, rest) ← readShort quote fuel rest
      return (e :: text, rest)
    else if isPlain c then do
      let (text, rest) ← readShort quote fuel rest
      return (c :: text, rest)
    else none

/-- A text over several lines up to its three closing quotes, before which two more may stand. A line
end is read as a line feed, and in double quotes a backslash at the end of a line takes all blanks
and line ends behind it away. -/
def readLong (quote : Char) : (fuel : Nat) → List Char → Option (List Char × List Char)
  | 0, _ => none
  | _, [] => none
  | fuel + 1, c :: rest =>
    if c = quote then
      let run := ((c :: rest).takeWhile (· == quote)).length
      if run < 3 then do
        let (text, rest) ← readLong quote fuel ((c :: rest).drop run)
        return (List.replicate run quote ++ text, rest)
      else some (List.replicate (min run 5 - 3) quote, (c :: rest).drop (min run 5))
    else if c = '\\' && quote = '"' then
      match afterLineEnd? (skipBlanks rest) with
      | some behind => readLong quote fuel (skipBlankLines behind)
      | none => do
        let (e, rest) ← readEscape rest
        let (text, rest) ← readLong quote fuel rest
        return (e :: text, rest)
    else match afterLineEnd? (c :: rest) with
    | some behind => do
      let (text, rest) ← readLong quote fuel behind
      return ('\n' :: text, rest)
    | none =>
      if isPlain c then do
        let (text, rest) ← readLong quote fuel rest
        return (c :: text, rest)
      else none

/-- A text in three quotes, behind them. A line end right there is left out. -/
def readLines (quote : Char) (cs : List Char) : Option (List Char × List Char) :=
  let cs := (afterLineEnd? cs).getD cs
  readLong quote (cs.length + 1) cs

def readText : List Char → Option (List Char × List Char)
  | '"' :: '"' :: '"' :: rest => readLines '"' rest
  | '\'' :: '\'' :: '\'' :: rest => readLines '\'' rest
  | '"' :: rest => readShort '"' (rest.length + 1) rest
  | '\'' :: rest => readShort '\'' (rest.length + 1) rest
  | _ => none

/-! ### Keys -/

/-- The characters of a key without quotes. -/
def isKeyChar (c : Char) : Bool := c.isAlphanum || c == '-' || c == '_'

/-- One part of a key: without quotes, or in quotes on one line. -/
def readName : List Char → Option (List Char × List Char)
  | '"' :: rest => readShort '"' (rest.length + 1) rest
  | '\'' :: rest => readShort '\'' (rest.length + 1) rest
  | cs =>
    match cs.takeWhile isKeyChar with
    | [] => none
    | name => some (name, cs.dropWhile isKeyChar)

/-- The parts of a key with points between them, and blanks around every part. Fuel for one part
more than there are does. -/
def readParts : (fuel : Nat) → List Char → Option (List String × List Char)
  | 0, _ => none
  | fuel + 1, cs => do
    let (name, rest) ← readName (skipBlanks cs)
    match skipBlanks rest with
    | '.' :: rest =>
      let (names, rest) ← readParts fuel rest
      return (String.ofList name :: names, rest)
    | rest => return ([String.ofList name], rest)

/-- The most levels that arrays, inline tables and the parts of a key can have. -/
def maxLevels : Nat := 79

def readKey (cs : List Char) : Option (List String × List Char) := readParts maxLevels cs

end Downline.Toml
