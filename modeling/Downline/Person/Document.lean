import Downline.Json.Decode
import Downline.Store.Call

/-!
People and what belongs to them as JSON documents: how each is written and what is read as one.
-/

namespace Downline

open Json (Fields)

/-! ### Identities and logins -/

/-- An id is written as its text. -/
def PersonId.toJson (id : PersonId) : Json := .text id.text

def PersonId.ofJson? (j : Json) : Option PersonId := j.asText?.map PersonId.mk

def PersonId.optJson (id : Option PersonId) : Json := .optText (id.map (·.text))

/-- A login as an object. -/
def Credentials.toJson (c : Credentials) : Json :=
  .obj [("username", .text c.username), ("password", .text c.password)]

def Credentials.ofJson? (j : Json) : Option Credentials := do
  let f ← j.fields? ["username", "password"]
  let username ← f.required "username" Json.asText?
  let password ← f.required "password" Json.asText?
  return { username, password }

def CredentialState.name : CredentialState → String
  | .empty => "empty"
  | .placeholder => "placeholder"
  | .full => "full"

def CredentialState.ofName? : String → Option CredentialState
  | "empty" => some .empty
  | "placeholder" => some .placeholder
  | "full" => some .full
  | _ => none

/-- The credential state that a document gives: its name, or an object with the name over null. -/
def CredentialState.ofJson? : Json → Option CredentialState
  | .string (some s) => ofName? s
  | .object [(some s, .null)] => ofName? s
  | _ => none

/-- Counts as an object. -/
def CredentialCensus.toJson (c : CredentialCensus) : Json :=
  .obj [("empty", .nat c.empty.toNat), ("placeholder", .nat c.placeholder.toNat),
    ("full", .nat c.full.toNat)]

def CredentialCensus.ofJson? (j : Json) : Option CredentialCensus := do
  let f ← j.fields? ["empty", "placeholder", "full"]
  let empty ← f.required "empty" Json.asCount?
  let placeholder ← f.required "placeholder" Json.asCount?
  let full ← f.required "full" Json.asCount?
  return { empty := .ofNat empty, placeholder := .ofNat placeholder, full := .ofNat full }

/-! ### People -/

namespace PersonAttributes

/-- The names of the attributes, in their order. -/
def names : List String :=
  ["name", "rank", "highest_rank", "signup_date", "center", "country", "personal_pv", "network_pv",
    "total_pv", "username", "password", "built_tree"]

/-- The attributes as members of an object. -/
def members (a : PersonAttributes) : List (String × Json) :=
  [("name", .optText a.name), ("rank", .optText a.rank), ("highest_rank", .optText a.highestRank),
    ("signup_date", .optText a.signupDate), ("center", .optText a.center),
    ("country", .optText a.country), ("personal_pv", .float a.personalPv),
    ("network_pv", .float a.networkPv), ("total_pv", .float a.totalPv),
    ("username", .optText a.username), ("password", .optText a.password),
    ("built_tree", .bool a.builtTree)]

/-- The attributes as an object. -/
def toJson (a : PersonAttributes) : Json := .obj a.members

/-- The attributes that the fields of a record give. Texts may be unset; numbers may not. -/
def ofFields? (f : Fields) : Option PersonAttributes := do
  let name ← f.optional "name" Json.asText?
  let rank ← f.optional "rank" Json.asText?
  let highestRank ← f.optional "highest_rank" Json.asText?
  let signupDate ← f.optional "signup_date" Json.asText?
  let center ← f.optional "center" Json.asText?
  let country ← f.optional "country" Json.asText?
  let personalPv ← f.required "personal_pv" Json.asFloat?
  let networkPv ← f.required "network_pv" Json.asFloat?
  let totalPv ← f.required "total_pv" Json.asFloat?
  let username ← f.optional "username" Json.asText?
  let password ← f.optional "password" Json.asText?
  let builtTree ← f.required "built_tree" Json.asBool?
  return { name, rank, highestRank, signupDate, center, country, personalPv, networkPv, totalPv,
           username, password, builtTree }

def ofJson? (j : Json) : Option PersonAttributes := do ofFields? (← j.fields? names)

end PersonAttributes

namespace PersonRecord

/-- A record as one flat object, the id first. -/
def toJson (r : PersonRecord) : Json :=
  .obj (("distributor_id", r.id.toJson) :: r.attributes.members)

/-- The record that a document gives. It must be an object that can be kept whole, because which of
its members are attributes is only told in the end. -/
def ofJson? (j : Json) : Option PersonRecord := do
  match j with
  | .object _ =>
    if !j.isKeepable Json.maxLevels then none
    else
      let f ← j.fields? ("distributor_id" :: PersonAttributes.names)
      let id ← f.required "distributor_id" PersonId.ofJson?
      let attributes ← PersonAttributes.ofFields? f
      return { id, attributes }
  | _ => none

/-- A record with its relations as one flat object, its keys in ascending order. -/
def document (r : PersonRecord) (relations : Relations) : Json :=
  let members := ("id", r.id.toJson) :: r.attributes.members ++
    [("parent_id", PersonId.optJson relations.parent), ("left_id", PersonId.optJson relations.left),
      ("right_id", PersonId.optJson relations.right)]
  .obj (members.mergeSort fun a b => (compare a.1 b.1).isLE)

end PersonRecord

/-- Relations as an object. -/
def Relations.toJson (r : Relations) : Json :=
  .obj [("parent_id", PersonId.optJson r.parent), ("left_id", PersonId.optJson r.left),
    ("right_id", PersonId.optJson r.right)]

def Relations.ofJson? (j : Json) : Option Relations := do
  let f ← j.fields? ["parent_id", "left_id", "right_id"]
  let parent ← f.optional "parent_id" PersonId.ofJson?
  let left ← f.optional "left_id" PersonId.ofJson?
  let right ← f.optional "right_id" PersonId.ofJson?
  return { parent, left, right }

/-- A candidate as an object. -/
def ChainCandidate.toJson (c : ChainCandidate) : Json :=
  .obj [("start", c.start.toJson), ("end", c.last.toJson)]

def ChainCandidate.ofJson? (j : Json) : Option ChainCandidate := do
  let f ← j.fields? ["start", "end"]
  let start ← f.required "start" PersonId.ofJson?
  let last ← f.required "end" PersonId.ofJson?
  return { start, last }

end Downline
