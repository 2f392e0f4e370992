import Downline.Store.Call

/-!
The statements that are sent to the database. A parent edge points up from a child, and the edges of
the child slots point down from a parent.
-/

namespace Downline.Database

/-- The value of a parameter. -/
inductive Parameter where
  | text (s : String)
  | texts (ss : List String)
deriving DecidableEq, Inhabited, Repr

/-- A statement with its parameters. -/
structure Statement where
  cypher : String
  parameters : List (String × Parameter) := []
deriving DecidableEq, Inhabited, Repr

namespace Statement

/-- The clauses of a statement, with a blank between any two. -/
def clauses (cs : List String) (parameters : List (String × Parameter)) : Statement :=
  { cypher := String.intercalate " " cs, parameters }

def ping : Statement := clauses ["RETURN 1 AS ok"] []

def index : Statement :=
  clauses ["CREATE INDEX person_distributor_id IF NOT EXISTS",
    "FOR (p:Person) ON (p.distributor_id)"] []

def personWith (name id : String) : String :=
  "(" ++ name ++ ":Person \x7bdistributor_id: " ++ id ++ "\x7d)"

def climb (maxDepth : UInt32) : String := "-[:PARENT*1.." ++ toString maxDepth ++ "]->"

def person (id : PersonId) : Statement :=
  clauses ["MATCH " ++ personWith "n" "$id", "RETURN n LIMIT 1"] [("id", .text id.text)]

/-- The neighbours of one person; the empty text stands for none. -/
def relations (id : PersonId) : Statement :=
  clauses ["MATCH " ++ personWith "n" "$id",
    "OPTIONAL MATCH (n)-[:PARENT]->(p:Person)",
    "OPTIONAL MATCH (n)-[:LEFT_CHILD]->(l:Person)",
    "OPTIONAL MATCH (n)-[:RIGHT_CHILD]->(r:Person)",
    "RETURN coalesce(p.distributor_id, '') AS parent_id,",
    "coalesce(l.distributor_id, '') AS left_id,",
    "coalesce(r.distributor_id, '') AS right_id", "LIMIT 1"] [("id", .text id.text)]

def emptyIds : Statement :=
  clauses ["MATCH (n:Person)", "WHERE n.username IS NULL OR n.password IS NULL",
    "RETURN n.distributor_id AS id", "ORDER BY id"] []

def fullIds (placeholder : String) : Statement :=
  clauses ["MATCH (n:Person)", "WHERE n.username IS NOT NULL AND n.password IS NOT NULL",
    "AND n.password <> $placeholder", "RETURN n.distributor_id AS id"]
    [("placeholder", .text placeholder)]

/-- The walks up from origins to their first terminators. -/
def upwardPaths (origins : List PersonId) (terminators : IdSet) (maxDepth : UInt32) : Statement :=
  clauses ["UNWIND $origins AS origin_id", "MATCH " ++ personWith "origin" "origin_id",
    "MATCH p = (origin)" ++ climb maxDepth ++ "(t:Person)",
    "WHERE t.distributor_id IN $terminators",
    "AND none(x IN nodes(p)[0..-1] WHERE x.distributor_id IN $terminators)",
    "RETURN origin_id,", "[x IN nodes(p)[0..-1] | x.distributor_id] AS walked,",
    "t.distributor_id AS terminator_id,", "t.username AS username,", "t.password AS password"]
    [("origins", .texts (origins.map (·.text))),
      ("terminators", .texts (terminators.toList.map (·.text)))]

def rekeyCandidates (placeholder : String) (maxDepth : UInt32) : Statement :=
  clauses ["MATCH p = (end:Person)" ++ climb maxDepth ++ "(start:Person)",
    "WHERE start.username IS NOT NULL AND start.password IS NOT NULL",
    "AND start.password <> $placeholder",
    "AND all(x IN nodes(p)[1..-1] WHERE x.password = $placeholder)",
    "AND (", "(end.password = $placeholder AND NOT ()-[:PARENT]->(end))",
    "OR (length(p) > 1 AND coalesce(end.password, '') <> $placeholder)", ")",
    "RETURN start.distributor_id AS start_id, end.distributor_id AS end_id"]
    [("placeholder", .text placeholder)]

/-- The path from one person down to another, as three lists of equal length; the empty text stands
for a missing half of a login. -/
def downwardPath (start last : PersonId) (maxDepth : UInt32) : Statement :=
  clauses ["MATCH p = " ++ personWith "end" "$end" ++ climb maxDepth, personWith "start" "$start",
    "WITH reverse(nodes(p)) AS chain LIMIT 1", "RETURN [x IN chain | x.distributor_id] AS ids,",
    "[x IN chain | coalesce(x.username, '')] AS usernames,",
    "[x IN chain | coalesce(x.password, '')] AS passwords"]
    [("end", .text last.text), ("start", .text start.text)]

def condition : WriteGuard → String
  | .notFull _ => "(n.username IS NULL OR n.password IS NULL OR n.password = $placeholder)"
  | .holdsPlaceholder _ => "n.password = $placeholder"

/-- Gives the listed people that a guard permits the same login. -/
def setCredentials (ids : List PersonId) (credentials : Credentials) (guard : WriteGuard) :
    Statement :=
  clauses ["MATCH (n:Person)", "WHERE n.distributor_id IN $ids AND " ++ condition guard,
    "SET n.username = $username, n.password = $password", "RETURN count(n) AS cnt"]
    [("ids", .texts (ids.map (·.text))), ("password", .text credentials.password),
      ("placeholder", .text guard.placeholder), ("username", .text credentials.username)]

/-- The number of people in each credential state. -/
def credentialCensus (placeholder : String) : Statement :=
  clauses ["MATCH (n:Person)", "RETURN",
    "count(CASE WHEN n.username IS NULL OR n.password IS NULL THEN 1 END) AS empty,",
    "count(CASE WHEN n.username IS NOT NULL AND n.password = $placeholder",
    "THEN 1 END) AS placeholder,",
    "count(CASE WHEN n.username IS NOT NULL AND n.password IS NOT NULL",
    "AND n.password <> $placeholder THEN 1 END) AS full"]
    [("placeholder", .text placeholder)]

/-- The statement of a call. Where nothing is asked for, none is sent. -/
def ofCall? : Call → Option Statement
  | .person id => some (person id)
  | .relations id => some (relations id)
  | .emptyIds => some emptyIds
  | .fullIds placeholder => some (fullIds placeholder)
  | .upwardPaths origins terminators maxDepth =>
    if origins.isEmpty || terminators.isEmpty then none
    else some (upwardPaths origins terminators maxDepth)
  | .rekeyCandidates placeholder maxDepth => some (rekeyCandidates placeholder maxDepth)
  | .downwardPath start last maxDepth => some (downwardPath start last maxDepth)
  | .setCredentials ids credentials guard =>
    if ids.isEmpty then none else some (setCredentials ids credentials guard)
  | .credentialCensus placeholder => some (credentialCensus placeholder)

end Statement

end Downline.Database
