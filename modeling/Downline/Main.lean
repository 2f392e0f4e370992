import Downline.CommandLine.Run

/-!
The command line program. No way to a database belongs to this library, so a command that is asked
for fails as on a link on which no server is reached, once its settings are in order.
-/

namespace Downline.CommandLine

def usage : String :=
  "Usage: [--config FILE] propagate | rekey [--passes N] | census | show --id ID | daemon"

def variableNames : List String :=
  [("NEO4J", ["URI", "USER", "PASSWORD", "MAX_CONNECTIONS", "FETCH_SIZE"]),
    ("JOBS", ["PLACEHOLDER_PASSWORD", "BATCH_SIZE", "MAX_DEPTH", "MAX_IN_FLIGHT", "MAX_PASSES",
      "JOURNAL_DIR"]),
    ("SCHEDULE", ["INTERVAL_SECS"])].flatMap fun (section_, keys) =>
      keys.map fun key => s!"LINEAGE__{section_}__{key}"

/-- The text of a file, if it can be read. -/
def readFile? (name : String) : IO (Option String) :=
  try some <$> IO.FS.readFile name catch _ => return none

def findSurroundings (inv : Invocation) : IO (Surroundings Unit) := do
  let names := [inv.settings, inv.settings ++ ".toml", inv.settings ++ ".json"]
  let files ← names.filterMapM fun name => do
    return (← readFile? name).map fun text => (FilePath.ofText name, text)
  let environment ← variableNames.filterMapM fun name => do
    return (← IO.getEnv name).map fun value => (name, value)
  return { files := { files }, environment, stamps := fun _ => default, rest := fun _ s => s,
           horizon := 0 }

/-- Runs the program. It ends with 0, with 1 after an error, and with 2 after wrong usage. -/
def start (args : List String) : IO UInt32 := do
  match parse args with
  | .error .help =>
    IO.println usage
    return 0
  | .error .misuse =>
    IO.eprintln usage
    return 2
  | .ok inv =>
    match (run Database.unreachable (← findSurroundings inv) inv ()).1 with
    | .ok (.ok printed) =>
      IO.println printed.toJson.pretty
      return 0
    | .ok (.error e) =>
      IO.eprintln s!"Error: {e.message}"
      return 1
    | .error _ => return 1

end Downline.CommandLine

def main (args : List String) : IO UInt32 := Downline.CommandLine.start args
