import Downline.Database.Address.Host

/-!
Addresses of servers: a scheme, and behind two slashes a host and perhaps the number of a service
there. What follows is not looked at. An address without a scheme is one of `bolt`.
-/

namespace Downline.Database

/-- An address. -/
structure Address where
  scheme : String
  host : Option String := none
  service : Option Nat := none
deriving DecidableEq, Inhabited, Repr

namespace Address

/-- What a scheme says of the text behind it. -/
inductive Kind where
  /-- The path of a file, perhaps on a host. -/
  | file
  /-- A host must follow, and backslashes count as slashes. -/
  | web
  | plain
deriving DecidableEq, Inhabited, Repr

def Kind.ofScheme (scheme : String) : Kind :=
  if scheme = "file" then .file
  else if ["http", "https", "ws", "wss", "ftp"].contains scheme then .web
  else .plain

/-- Whether a character counts as a slash. -/
def Kind.isSlash (kind : Kind) (c : Char) : Bool := c == '/' || (c == '\\' && kind != .plain)

/-- Whether a character ends the host and all that goes with it. -/
def Kind.endsAuthority (kind : Kind) (c : Char) : Bool := kind.isSlash c || c == '?' || c == '#'

/-- A text without blanks and control characters at its ends, and without tabs and line ends. -/
def cleaned (s : String) : List Char :=
  let isBlank (c : Char) : Bool := c.toNat ≤ 32
  let inner := ((s.toList.dropWhile isBlank).reverse.dropWhile isBlank).reverse
  inner.filter fun c => c != '\t' && c != '\n' && c != '\r'

def splitScheme? (cs : List Char) : Option (String × List Char) :=
  let isSchemeChar (c : Char) : Bool := c.isAlphanum || c == '+' || c == '-' || c == '.'
  let name := cs.takeWhile isSchemeChar
  match name, cs.dropWhile isSchemeChar with
  | first :: _, ':' :: rest =>
    if first.isAlpha then some (String.ofList (name.map Char.toLower), rest) else none
  | _, _ => none

/-- Splits off what stands before the last at-sign in front of the host, and says whether there is a
user or a password in it. -/
def splitLogin (kind : Kind) (cs : List Char) : Except AddressFault (Bool × List Char) :=
  let front := cs.takeWhile fun c => !kind.endsAuthority c
  let back := cs.dropWhile fun c => !kind.endsAuthority c
  match front.reverse.dropWhile (· != '@') with
  | [] => .ok (false, cs)
  | _ :: login =>
    let rest := (front.reverse.takeWhile (· != '@')).reverse ++ back
    match login.reverse, rest with
    | [], c :: _ => if kind.endsAuthority c then .error .noHost else .ok (false, rest)
    | login, _ => .ok (login != [] && login != [':'], rest)

/-- Splits off a host: all up to a colon outside of brackets, or to the end of the authority. -/
def splitHost (kind : Kind) : (inBrackets : Bool) → List Char → List Char × List Char
  | _, [] => ([], [])
  | inBrackets, c :: cs =>
    if kind.endsAuthority c || (c == ':' && !inBrackets) then ([], c :: cs)
    else
      let (host, rest) := splitHost kind ((inBrackets || c == '[') && c != ']') cs
      (c :: host, rest)

/-- Reads the number of a service behind a colon. There may be no digits. -/
def serviceOf (cs : List Char) : Except AddressFault (Option Nat) :=
  let ds := cs.takeWhile Char.isDigit
  let ends (c : Char) : Bool := c == '/' || c == '\\' || c == '?' || c == '#'
  let n := Literal.digitsValue ds
  if UInt16.size ≤ n || !(cs.dropWhile Char.isDigit).head?.all ends then .error .service
  else .ok (if ds.isEmpty then none else some n)

def ofAuthority (kind : Kind) (scheme : String) (cs : List Char) : Except AddressFault Address := do
  let (login, rest) ← splitLogin kind cs
  let (name, rest) := splitHost kind false rest
  let host ← match kind with
    | .plain => Host.ofPlain name
    | _ => if name.isEmpty then throw .noHost else Host.ofLookedUp name
  let service ← match rest with
    | ':' :: rest => if host = "" then throw .noHost else serviceOf rest
    | _ => pure none
  if host = "" && login then throw .noHost
  return { scheme, host := if host = "" then none else some host, service }

def isDrive : List Char → Bool
  | [c, mark] => c.isAlpha && (mark == ':' || mark == '|')
  | _ => false

/-- Reads the host of a file. The machine itself counts as none, and so does any host before a path
that begins with the letter of a drive. -/
def ofFile (cs : List Char) : Except AddressFault Address :=
  match cs with
  | a :: b :: rest =>
    if Kind.file.isSlash a && Kind.file.isSlash b then
      let name := rest.takeWhile fun c => !Kind.file.endsAuthority c
      let path := (rest.dropWhile fun c => !Kind.file.endsAuthority c).drop 1
      if name.isEmpty || isDrive name then .ok { scheme := "file" }
      else
        (Host.ofLookedUp name).map fun host =>
          if host = "localhost" || isDrive (path.takeWhile fun c => !Kind.file.endsAuthority c) then
            { scheme := "file" }
          else { scheme := "file", host }
    else .ok { scheme := "file" }
  | _ => .ok { scheme := "file" }

def ofSchemed (s : String) : Except AddressFault Address :=
  match splitScheme? (cleaned s) with
  | none => .error .noScheme
  | some (scheme, rest) =>
    match Kind.ofScheme scheme, rest with
    | .file, rest => ofFile rest
    | .web, rest => ofAuthority .web scheme (rest.dropWhile Kind.web.isSlash)
    | .plain, '/' :: '/' :: rest => ofAuthority .plain scheme rest
    | .plain, _ => .ok { scheme }

/-- Reads an address. Where no host follows a scheme, what looks like a scheme is a host. -/
def ofText (s : String) : Except AddressFault Address :=
  let unschemed := ofSchemed ("bolt://" ++ s)
  match ofSchemed s with
  | .ok a => if a.host.isSome then .ok a else unschemed
  | .error .noScheme => unschemed
  | .error e => .error e

end Address

end Downline.Database
