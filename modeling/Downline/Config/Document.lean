import Downline.Config.Sync
import Downline.Json.Decode

/-!
Settings as JSON documents. Every setting has a default, so any part of a section may be left out.
-/

namespace Downline

namespace JobConfig

/-- The settings of the jobs as an object. -/
def toJson (c : JobConfig) : Json :=
  .obj [("placeholder_password", .text c.placeholderPassword), ("batch_size", .nat c.batchSize),
    ("max_depth", .nat c.maxDepth.toNat), ("max_in_flight", .nat c.maxInFlight),
    ("max_passes", .nat c.maxPasses), ("journal_dir", .optText c.journalDir)]

def ofJson? (j : Json) : Option JobConfig := do
  let d : JobConfig := {}
  let f ← j.fields? ["placeholder_password", "batch_size", "max_depth", "max_in_flight",
    "max_passes", "journal_dir"]
  let placeholderPassword ← f.withDefault "placeholder_password" Json.asText? d.placeholderPassword
  let batchSize ← f.withDefault "batch_size" Json.asCount? d.batchSize
  let maxDepth ← f.withDefault "max_depth" (Json.asNat? UInt32.size) d.maxDepth.toNat
  let maxInFlight ← f.withDefault "max_in_flight" Json.asCount? d.maxInFlight
  let maxPasses ← f.withDefault "max_passes" (Json.asNat? UInt32.size) d.maxPasses
  let journalDir ← f.withDefault "journal_dir" (Json.asOption? Json.asText?) d.journalDir
  return { placeholderPassword, batchSize, maxDepth := .ofNat maxDepth, maxInFlight, maxPasses,
           journalDir }

end JobConfig

namespace GraphConfig

/-- The database settings as an object. -/
def toJson (c : GraphConfig) : Json :=
  .obj [("uri", .text c.uri), ("user", .text c.user), ("password", .text c.password),
    ("max_connections", .nat c.maxConnections), ("fetch_size", .nat c.fetchSize)]

def ofJson? (j : Json) : Option GraphConfig := do
  let d : GraphConfig := {}
  let f ← j.fields? ["uri", "user", "password", "max_connections", "fetch_size"]
  let uri ← f.withDefault "uri" Json.asText? d.uri
  let user ← f.withDefault "user" Json.asText? d.user
  let password ← f.withDefault "password" Json.asText? d.password
  let maxConnections ← f.withDefault "max_connections" (Json.asNat? UInt32.size) d.maxConnections
  let fetchSize ← f.withDefault "fetch_size" Json.asCount? d.fetchSize
  return { uri, user, password, maxConnections, fetchSize }

end GraphConfig

namespace ScheduleConfig

/-- The schedule as an object. -/
def toJson (c : ScheduleConfig) : Json := .obj [("interval_secs", .nat c.intervalSecs)]

def ofJson? (j : Json) : Option ScheduleConfig := do
  let d : ScheduleConfig := {}
  let f ← j.fields? ["interval_secs"]
  let intervalSecs ← f.withDefault "interval_secs" Json.asCount? d.intervalSecs
  return { intervalSecs }

end ScheduleConfig

namespace SyncConfig

/-- All settings as an object. -/
def toJson (c : SyncConfig) : Json :=
  .obj [("neo4j", c.neo4j.toJson), ("jobs", c.jobs.toJson), ("schedule", c.schedule.toJson)]

def ofJson? (j : Json) : Option SyncConfig := do
  let d : SyncConfig := {}
  let f ← j.fields? ["neo4j", "jobs", "schedule"]
  let neo4j ← f.withDefault "neo4j" GraphConfig.ofJson? d.neo4j
  let jobs ← f.withDefault "jobs" JobConfig.ofJson? d.jobs
  let schedule ← f.withDefault "schedule" ScheduleConfig.ofJson? d.schedule
  return { neo4j, jobs, schedule }

end SyncConfig

end Downline
