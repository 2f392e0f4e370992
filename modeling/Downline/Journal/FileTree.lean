/-!
Files and directories below one base directory, held in memory. Files are listed in the order of
their creation, and a file that is written again keeps its place.
-/

namespace Downline

/-- A path below the base directory, by its parts. A path from elsewhere begins with an empty part. -/
abbrev FilePath := List String

/-- The parts of a path as it is written. -/
def FilePath.ofText (s : String) : FilePath :=
  let parts := (s.splitOn "/").filter fun p => p != "" && p != "."
  if s.startsWith "/" then "" :: parts else parts

/-- Files and directories. -/
structure FileTree where
  directories : List FilePath := []
  files : List (FilePath × String) := []
deriving DecidableEq, Inhabited, Repr

/-- Why a file operation fails. -/
inductive FileError where
  | notFound
  /-- A file stands where a directory is wanted, or a directory where a file is. -/
  | inTheWay
deriving DecidableEq, Inhabited, Repr

namespace FileTree

def read? (t : FileTree) (path : FilePath) : Option String :=
  (t.files.find? fun f => f.1 == path).map (·.2)

def isFile (t : FileTree) (path : FilePath) : Bool := (t.read? path).isSome

/-- Whether a directory stands at a path. The base directory always does. -/
def isDirectory (t : FileTree) (path : FilePath) : Bool :=
  path == [] || t.directories.contains path

/-- The paths that lead to a path, from the base down, the path itself last. -/
def ancestry (path : FilePath) : List FilePath :=
  (List.range path.length).map fun n => path.take (n + 1)

def makeDirectory (t : FileTree) (path : FilePath) : Except FileError FileTree :=
  if t.isFile path then .error .inTheWay
  else if t.isDirectory path then .ok t
  else .ok { t with directories := t.directories ++ [path] }

/-- Makes a directory and all above it that are missing. -/
def makeDirectories (t : FileTree) (path : FilePath) : Except FileError FileTree :=
  (ancestry path).foldlM makeDirectory t

def put (t : FileTree) (path : FilePath) (text : String) : FileTree :=
  if t.isFile path then
    { t with files := t.files.map fun f => if f.1 == path then (path, text) else f }
  else { t with files := t.files ++ [(path, text)] }

def write (t : FileTree) (path : FilePath) (text : String) : Except FileError FileTree :=
  if t.isDirectory path then .error .inTheWay
  else if t.isDirectory path.dropLast then .ok (t.put path text)
  else .error .notFound

def remove (t : FileTree) (path : FilePath) : Except FileError FileTree :=
  if t.isFile path then .ok { t with files := t.files.filter fun f => f.1 != path }
  else .error .notFound

/-- The first file of a name anywhere below a directory. -/
def find? (t : FileTree) (directory : FilePath) (name : String) : Option (FilePath × String) :=
  t.files.find? fun f => directory.isPrefixOf f.1 && f.1.length != directory.length &&
    f.1.getLast? == some name

end FileTree

end Downline
