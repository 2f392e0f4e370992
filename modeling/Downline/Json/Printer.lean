import Downline.HexDigit
import Downline.Json.Value

/-!
Writing JSON, on one line without blanks or over several lines with two blanks a level. Each writer
puts its text in front of what is already written behind it.
-/

namespace Downline.Json

/-- A character inside a string. Quotes, backslashes and control characters are escaped, and
everything else stands for itself. -/
def escape (c : Char) : List Char :=
  if c = '"' then ['\\', '"']
  else if c = '\\' then ['\\', '\\']
  else if c = '\x08' then ['\\', 'b']
  else if c = '\x0c' then ['\\', 'f']
  else if c = '\n' then ['\\', 'n']
  else if c = '\r' then ['\\', 'r']
  else if c = '\t' then ['\\', 't']
  else if c.toNat < 32 then '\\' :: 'u' :: (HexDigit.ofNat 4 c.toNat).map HexDigit.char
  else [c]

def writeText : List Char → List Char → List Char
  | [], behind => '"' :: behind
  | c :: rest, behind => escape c ++ writeText rest behind

/-- A string with its quotes. One that stands for no text is written as an escape that stands for no
character. -/
def writeString : Option String → List Char → List Char
  | some s, behind => '"' :: writeText s.toList behind
  | none, behind => '"' :: '\\' :: 'u' :: 'd' :: '8' :: '0' :: '0' :: '"' :: behind

mutual

/-- A document on one line without blanks. -/
def write : Json → List Char → List Char
  | null, behind => 'n' :: 'u' :: 'l' :: 'l' :: behind
  | bool true, behind => 't' :: 'r' :: 'u' :: 'e' :: behind
  | bool false, behind => 'f' :: 'a' :: 'l' :: 's' :: 'e' :: behind
  | number literal, behind => literal.toList ++ behind
  | string s, behind => writeString s behind
  | array [], behind => '[' :: ']' :: behind
  | array (j :: rest), behind => '[' :: write j (writeItems rest behind)
  | object [], behind => '\x7b' :: '\x7d' :: behind
  | object ((k, j) :: rest), behind =>
    '\x7b' :: writeString k (':' :: write j (writeMembers rest behind))

def writeItems : List Json → List Char → List Char
  | [], behind => ']' :: behind
  | j :: rest, behind => ',' :: write j (writeItems rest behind)

def writeMembers : List (Option String × Json) → List Char → List Char
  | [], behind => '\x7d' :: behind
  | (k, j) :: rest, behind => ',' :: writeString k (':' :: write j (writeMembers rest behind))

end

def newLine (level : Nat) (behind : List Char) : List Char :=
  '\n' :: (List.replicate (2 * level) ' ' ++ behind)

mutual

/-- A document over several lines, nested to `level`. -/
def writePretty (level : Nat) : Json → List Char → List Char
  | array (j :: rest), behind =>
    '[' :: newLine (level + 1) (writePretty (level + 1) j (writePrettyItems level rest behind))
  | object ((k, j) :: rest), behind =>
    '\x7b' :: newLine (level + 1) (writeString k (':' :: ' ' ::
      writePretty (level + 1) j (writePrettyMembers level rest behind)))
  | array [], behind => '[' :: ']' :: behind
  | object [], behind => '\x7b' :: '\x7d' :: behind
  | null, behind => write null behind
  | bool b, behind => write (bool b) behind
  | number literal, behind => write (number literal) behind
  | string s, behind => write (string s) behind

/-- The further items of an array at `level`, one a line, and its end. -/
def writePrettyItems (level : Nat) : List Json → List Char → List Char
  | [], behind => newLine level (']' :: behind)
  | j :: rest, behind =>
    ',' :: newLine (level + 1) (writePretty (level + 1) j (writePrettyItems level rest behind))

/-- The further members of an object at `level`, one a line, and its end. -/
def writePrettyMembers (level : Nat) : List (Option String × Json) → List Char → List Char
  | [], behind => newLine level ('\x7d' :: behind)
  | (k, j) :: rest, behind =>
    ',' :: newLine (level + 1) (writeString k (':' :: ' ' ::
      writePretty (level + 1) j (writePrettyMembers level rest behind)))

end

def compact (j : Json) : String := String.ofList (j.write [])

def pretty (j : Json) : String := String.ofList (j.writePretty 0 [])

end Downline.Json
