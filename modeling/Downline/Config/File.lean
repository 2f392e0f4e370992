import Downline.Config.Setting
import Downline.Json.Decode
import Downline.Json.Reader
import Downline.Journal.FileTree
import Downline.Toml.Reader

/-!
Settings files: TOML or JSON, told apart by the extension of the file. Keys count without their case.
-/

namespace Downline

namespace Setting

/-- The value of a number in a JSON document: a whole one that fits 64 bits with a sign, or else a
floating-point number. -/
def ofJsonNumber (literal : String) : Setting :=
  let l := Literal.ofString literal
  let n := l.wholeValue
  if l.isWhole && Literal.fitsInt64 n && !(l.negative && n == 0) then int n
  else float (l.scaledWord.getD 0)

mutual

def ofJson : Json → Setting
  | .null => unset
  | .bool b => bool b
  | .number literal => ofJsonNumber literal
  | .string s => text (s.getD "")
  | .array items => list (ofItems items)
  | .object members => table (ofMembers members)

def ofItems : List Json → List Setting
  | [] => []
  | j :: rest => ofJson j :: ofItems rest

def ofMembers : List (Option String × Json) → List (String × Setting)
  | [] => []
  | (key, j) :: rest => (key.getD "", ofJson j) :: ofMembers rest

end

/-- A key without its case. -/
def foldedKey (key : String) : String := String.ofList (key.toList.map Char.toLower)

/-- Entries with one entry for every key without its case; the last one counts. -/
def folded (entries : List (String × Setting)) : List (String × Setting) :=
  (entries.foldl (fun s e => s.put (foldedKey e.1) e.2) (table [])).entries

mutual

/-- A value with the keys of all tables in it without their case. -/
def fold : Setting → Setting
  | list items => list (foldItems items)
  | table entries => table (folded (foldEntries entries))
  | s => s

def foldItems : List Setting → List Setting
  | [] => []
  | s :: rest => fold s :: foldItems rest

def foldEntries : List (String × Setting) → List (String × Setting)
  | [] => []
  | (key, s) :: rest => (key, fold s) :: foldEntries rest

end

end Setting

/-- The forms of a settings file that are read here. What files of other forms say comes in the same
shape, as a list of settings by their keys. -/
inductive SettingsForm where
  | toml
  | json
deriving DecidableEq, Inhabited, Repr

namespace SettingsForm

def fileExtension : SettingsForm → String
  | toml => "toml"
  | json => "json"

/-- The part of a file name behind its last point, unless the point comes first. -/
def extensionOf (name : String) : String :=
  let cs := name.toList.reverse
  let behind := cs.takeWhile (· != '.')
  if behind.length + 1 < cs.length then String.ofList behind.reverse else ""

def ofFileName? (name : String) : Option SettingsForm :=
  [toml, json].find? fun f => f.fileExtension == extensionOf name

def read? : SettingsForm → String → Option (List (String × Setting))
  | toml, text => (Toml.ofString? text).map fun es => Setting.folded (Setting.foldEntries es)
  | json, text => do
    let j ← Json.ofString? text
    if !j.isKeepable Json.maxLevels then none
    match Setting.fold (Setting.ofJson j) with
    | .table es => some es
    | _ => none

end SettingsForm

/-- A path with the extension of a form added to its last part, if that is a name. -/
def SettingsForm.withExtension? (form : SettingsForm) (path : FilePath) : Option FilePath :=
  match path.getLast? with
  | none | some "" | some ".." => none
  | some name => some (path.dropLast ++ [name ++ "." ++ form.fileExtension])

/-- A settings file: its form and its text. -/
structure SettingsFile where
  form : SettingsForm
  text : String
deriving DecidableEq, Inhabited, Repr

namespace SettingsFile

/-- Whether a path is written as that of a directory. -/
def isDirectoryText (path : String) : Bool :=
  match (path.splitOn "/").getLast? with
  | some last => last == "" || last == "."
  | none => true

/-- The settings file that a written path stands for: the file there, if its extension is known, or,
if there is none, a file with a known extension added. -/
def find? (files : FileTree) (path : String) : Option SettingsFile :=
  let parts := FilePath.ofText path
  let exact := if isDirectoryText path then none else files.read? parts
  match exact with
  | some text => (SettingsForm.ofFileName? (parts.getLast?.getD "")).map fun form => { form, text }
  | none =>
    [SettingsForm.toml, .json].findSome? fun form =>
      ((form.withExtension? parts).bind files.read?).map fun text => { form, text }

/-- The settings of the file that a written path stands for; none where there is no such file. -/
def settings? (files : FileTree) (path : String) : Option (List (String × Setting)) :=
  match find? files path with
  | none => some []
  | some file => file.form.read? file.text

end SettingsFile

end Downline
