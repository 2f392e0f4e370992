import Downline.Config.Job

/-!
The settings of the whole program: the database, the jobs and the schedule.
-/

namespace Downline

/-- How the database is reached. -/
structure GraphConfig where
  uri : String := "bolt://localhost:7687"
  user : String := "neo4j"
  password : String := ""
  /-- The most pooled connections. -/
  maxConnections : Nat := 64
  fetchSize : Nat := 500
deriving DecidableEq, Inhabited, Repr

/-- The database settings where no section names the database. -/
def GraphConfig.local : GraphConfig := { password := "lineage-dev" }

/-- How often the daemon works. -/
structure ScheduleConfig where
  intervalSecs : Nat := 3600
deriving DecidableEq, Inhabited, Repr

/-- All settings. -/
structure SyncConfig where
  neo4j : GraphConfig := .local
  jobs : JobConfig := {}
  schedule : ScheduleConfig := {}
deriving DecidableEq, Inhabited, Repr

end Downline
