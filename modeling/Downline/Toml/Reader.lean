import Downline.Toml.Scalar
import Downline.Toml.Table
import Downline.Toml.Text

/-!
Reading TOML: lines that open a table or give a key its value.
-/

namespace Downline.Toml

/-- The text behind blanks, line ends and comments. `comment` says whether it starts in a comment. A
comment that holds a control character is not passed over to its end. -/
def skipFiller : (comment : Bool) → List Char → List Char
  | _, [] => []
  | _, '\n' :: rest => skipFiller false rest
  | _, '\r' :: '\n' :: rest => skipFiller false rest
  | true, c :: rest => if isPlain c then skipFiller true rest else c :: rest
  | false, '#' :: rest => skipFiller true rest
  | false, c :: rest => if isBlank c then skipFiller false rest else c :: rest

def readScalar (cs : List Char) : Option (Setting × List Char) :=
  match readMoment cs with
  | some (moment, rest) => some (.text (String.ofList moment), rest)
  | none => readNumber cs

mutual

/-- A value. Every call uses up one unit of fuel, and every array or inline table one level. -/
def readValue : (fuel levels : Nat) → List Char → Option (Setting × List Char)
  | 0, _, _ => none
  | fuel + 1, levels, cs =>
    match cs with
    | 't' :: 'r' :: 'u' :: 'e' :: rest => some (.bool true, rest)
    | 'f' :: 'a' :: 'l' :: 's' :: 'e' :: rest => some (.bool false, rest)
    | '[' :: rest =>
      match levels with
      | 0 => none
      | levels + 1 => (readItems fuel levels rest).map fun (items, rest) => (.list items, rest)
    | '\x7b' :: rest =>
      match levels with
      | 0 => none
      | levels + 1 =>
        match skipBlanks rest with
        | '\x7d' :: rest => some (.table [], rest)
        | rest =>
          (readPairs fuel levels [] rest).map fun (es, rest) => (.table (entrySettings es), rest)
    | cs =>
      match readText cs with
      | some (text, rest) => some (.text (String.ofList text), rest)
      | none => readScalar cs

/-- The items of an array up to its end. A comma may stand behind the last one. -/
def readItems : (fuel levels : Nat) → List Char → Option (List Setting × List Char)
  | 0, _, _ => none
  | fuel + 1, levels, cs =>
    match skipFiller false cs with
    | ']' :: rest => some ([], rest)
    | cs =>
      match readValue fuel levels cs with
      | none => none
      | some (item, rest) =>
        match skipFiller false rest with
        | ']' :: rest => some ([item], rest)
        | ',' :: rest =>
          (readItems fuel levels rest).map fun (items, rest) => (item :: items, rest)
        | _ => none

/-- The keys and values of an inline table up to its end, at least one, added to those before. -/
def readPairs : (fuel levels : Nat) → Entries → List Char → Option (Entries × List Char)
  | 0, _, _, _ => none
  | fuel + 1, levels, es, cs =>
    match readKey cs with
    | some (path, '=' :: rest) =>
      match readValue fuel levels (skipBlanks rest) with
      | none => none
      | some (value, rest) =>
        match es.put value path with
        | none => none
        | some es =>
          match skipBlanks rest with
          | '\x7d' :: rest => some (es, rest)
          | ',' :: rest => readPairs fuel levels es rest
          | _ => none
    | _ => none

end

/-- The text behind the end of a line, before which blanks and a comment may stand. The end of the
text is one. -/
def readLineEnd (cs : List Char) : Option (List Char) :=
  let cs := match skipBlanks cs with
    | '#' :: rest => rest.dropWhile isPlain
    | cs => cs
  match cs with
  | [] => some []
  | cs => afterLineEnd? cs

/-- A document while it is read: its tables, and the path of the one that is open. -/
structure Draft where
  root : Entries := []
  current : List String := []

/-- Opens the table of a header, or the next of the tables with one header. -/
def Draft.openAt (d : Draft) (next : Bool) (path : List String) : Option Draft :=
  match path.getLast? with
  | none => none
  | some key =>
    (d.root.within (if next then Entries.openNext key else Entries.openTable key)
      path.dropLast).map fun root => { root, current := path }

def Draft.readLine (d : Draft) (cs : List Char) : Option (Draft × List Char) :=
  match skipBlanks cs with
  | '[' :: '[' :: rest =>
    match readKey rest with
    | some (path, ']' :: ']' :: rest) => do
      let d ← d.openAt true path
      let rest ← readLineEnd rest
      return (d, rest)
    | _ => none
  | '[' :: rest =>
    match readKey rest with
    | some (path, ']' :: rest) => do
      let d ← d.openAt false path
      let rest ← readLineEnd rest
      return (d, rest)
    | _ => none
  | cs =>
    match readLineEnd cs with
    | some rest => some (d, rest)
    | none =>
      match readKey cs with
      | some (path, '=' :: rest) => do
        let cs := skipBlanks rest
        let (value, rest) ← readValue (2 * cs.length + 2) maxLevels cs
        let root ← d.root.within (Entries.put value path) d.current
        let rest ← readLineEnd rest
        return ({ d with root }, rest)
      | _ => none

/-- Reads all lines. Every line but an empty last one takes up a character. -/
def Draft.readAll : (fuel : Nat) → Draft → List Char → Option Draft
  | _, d, [] => some d
  | 0, _, _ => none
  | fuel + 1, d, cs =>
    match d.readLine cs with
    | some (d, rest) => readAll fuel d rest
    | none => none

/-- The settings of a document. A byte order mark at its start is left out. -/
def ofChars? (cs : List Char) : Option (List (String × Setting)) :=
  let cs := match cs with
    | '\ufeff' :: rest => rest
    | cs => cs
  (Draft.readAll (cs.length + 1) {} cs).map fun d => entrySettings d.root

def ofString? (s : String) : Option (List (String × Setting)) := ofChars? s.toList

end Downline.Toml
