import Downline.Database.Value

/-!
The rows of a database as answers to calls. The empty text in a column stands for something that is
missing where the statement has put it there.
-/

namespace Downline.Database

/-- A text, unless it is empty. -/
def nonEmpty? (s : String) : Option String := if s = "" then none else some s

/-- The person of a node. A property of a wrong type counts as unset. -/
def personOfNode (properties : List (String × Value)) : Except StoreError PersonRecord :=
  let property {α : Type} (name : String) (value : Value → Option α) : Option α :=
    (Row.get? properties name).bind value
  let text (name : String) : Option String := property name Value.asText?
  let number (name : String) : Float := (property name Value.asNumber?).getD 0
  match text "distributor_id" with
  | none => .error (.malformed "person without distributor_id")
  | some id => .ok {
      id := ⟨id⟩
      attributes := {
        name := text "name", rank := text "rank", highestRank := text "highest_rank"
        signupDate := text "signup_date", center := text "center", country := text "country"
        personalPv := number "personal_pv", networkPv := number "network_pv"
        totalPv := number "total_pv", username := text "username", password := text "password"
        builtTree := (property "built_tree" Value.asBool?).getD false } }

def personOfRow (r : Row) : Except StoreError PersonRecord :=
  match (r.get? "n").bind Value.asNode? with
  | some properties => personOfNode properties
  | none => .error (.malformed "Failed to deserialize person")

def relationsOfRow (r : Row) : Except StoreError Relations := do
  let neighbour (name : String) : Except StoreError (Option PersonId) :=
    (r.column name Value.asText?).map fun s => (nonEmpty? s).map PersonId.mk
  let parent ← neighbour "parent_id"
  let left ← neighbour "left_id"
  let right ← neighbour "right_id"
  return { parent, left, right }

def upwardPathOfRow (r : Row) : Except StoreError UpwardPath := do
  let origin ← r.id "origin_id"
  let walked ← r.column "walked" Value.asTexts?
  let terminator ← r.id "terminator_id"
  let username ← r.column "username" Value.asText?
  let password ← r.column "password" Value.asText?
  return { origin, walked := walked.map PersonId.mk, terminator,
           credentials := { username, password } }

def candidateOfRow (r : Row) : Except StoreError ChainCandidate := do
  let start ← r.id "start_id"
  let last ← r.id "end_id"
  return { start, last }

def pathNodes (ids usernames passwords : List String) : List PathNode :=
  ((ids.zip usernames).zip passwords).map fun n =>
    { id := ⟨n.1.1⟩, username := nonEmpty? n.1.2, password := nonEmpty? n.2 }

def pathOfRow (r : Row) : Except StoreError (List PathNode) := do
  let ids ← r.column "ids" Value.asTexts?
  let usernames ← r.column "usernames" Value.asTexts?
  let passwords ← r.column "passwords" Value.asTexts?
  if usernames.length = ids.length && passwords.length = ids.length then
    return pathNodes ids usernames passwords
  else .error (.malformed "Path columns have mismatched lengths")

/-- A count of a row as a 64-bit word; one below zero wraps around. -/
def countOfRow (r : Row) (name : String) : Except StoreError UInt64 :=
  (r.column name Value.asInt?).map UInt64.ofInt

def censusOfRow (r : Row) : Except StoreError CredentialCensus := do
  let empty ← countOfRow r "empty"
  let placeholder ← countOfRow r "placeholder"
  let full ← countOfRow r "full"
  return { empty, placeholder, full }

/-- The answer to a call by the rows of its statement. Where one row is wanted, the first one counts;
rows that were never asked for are none. -/
def answerOfRows : (c : Call) → List Row → Except StoreError c.Answer
  | .person _, [] => .ok none
  | .person _, r :: _ => (personOfRow r).map some
  | .relations id, [] => .error (.notFound "Person" id.text)
  | .relations _, r :: _ => relationsOfRow r
  | .emptyIds, rows => rows.mapM (Row.id · "id")
  | .fullIds _, rows => (rows.mapM (Row.id · "id")).map IdSet.ofIds
  | .upwardPaths .., rows => rows.mapM upwardPathOfRow
  | .rekeyCandidates .., rows => rows.mapM candidateOfRow
  | .downwardPath .., [] => .ok none
  | .downwardPath .., r :: _ => (pathOfRow r).map some
  | .setCredentials .., [] => .ok (0 : Nat)
  | .setCredentials .., r :: _ => (countOfRow r "cnt").map UInt64.toNat
  | .credentialCensus _, [] => .ok ({} : CredentialCensus)
  | .credentialCensus _, r :: _ => censusOfRow r

end Downline.Database
