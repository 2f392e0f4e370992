/-!
Settings of the maintenance jobs and the values that no job can run with.
-/

namespace Downline

/-- Why a job configuration is refused. -/
inductive ConfigError where
  | placeholderUnset
  | zeroBatchSize
  | zeroDepth
  | zeroInFlight
  | zeroPasses
  | other (reason : String)
deriving DecidableEq, Inhabited, Repr

namespace ConfigError

def reason : ConfigError → String
  | placeholderUnset => "jobs.placeholder_password must be set"
  | zeroBatchSize => "jobs.batch_size must be > 0"
  | zeroDepth => "jobs.max_depth must be > 0"
  | zeroInFlight => "jobs.max_in_flight must be > 0"
  | zeroPasses => "jobs.max_passes must be > 0"
  | other reason => reason

def message (e : ConfigError) : String :=
  "Configuration error: " ++ e.reason

end ConfigError

/-- The settings of the maintenance jobs. Only the placeholder password has no usable default. -/
structure JobConfig where
  /-- The well-known password of freshly created people. -/
  placeholderPassword : String := ""
  batchSize : Nat := 100
  /-- The most edges that a walk through the tree follows. -/
  maxDepth : UInt32 := 10000
  /-- The most re-keying tasks that are outstanding at once. -/
  maxInFlight : Nat := 50
  /-- The most passes of one re-keying run. -/
  maxPasses : Nat := 1
  /-- The directory of the run reports; without one no report is kept. -/
  journalDir : Option String := none
deriving DecidableEq, Inhabited, Repr

namespace JobConfig

/-- Refuses a configuration that no job can run with, for the first of its faults. -/
def validate (c : JobConfig) : Except ConfigError Unit :=
  if c.placeholderPassword = "" then .error .placeholderUnset
  else if c.batchSize = 0 then .error .zeroBatchSize
  else if c.maxDepth = 0 then .error .zeroDepth
  else if c.maxInFlight = 0 then .error .zeroInFlight
  else if c.maxPasses = 0 then .error .zeroPasses
  else .ok ()

/-- A configuration is accepted if it has a placeholder and none of its counts is zero. -/
theorem validate_eq_ok_iff {c : JobConfig} : c.validate = .ok () ↔
    c.placeholderPassword ≠ "" ∧ c.batchSize ≠ 0 ∧ c.maxDepth ≠ 0 ∧ c.maxInFlight ≠ 0 ∧
      c.maxPasses ≠ 0 := by
  unfold validate
  grind

end JobConfig

end Downline
