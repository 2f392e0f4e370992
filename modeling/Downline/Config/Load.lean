import Downline.Config.Environment
import Downline.Config.File
import Downline.Error

/-!
Loading the settings: a file, overridden key by key by the environment, then a check of the jobs.
-/

namespace Downline.SyncConfig

def tree (fromFile : List (String × Setting)) (env : Environment) : Setting :=
  ((Setting.table []).addSource fromFile).addSource env.settings

/-- The settings that come of what a file says, whatever its form, and of the environment. A file that cannot
be read says nothing at all; one that is not there says that nothing is set. -/
def ofContents (contents : Option (List (String × Setting))) (env : Environment) :
    Except SyncError SyncConfig :=
  match contents with
  | none => .error .settings
  | some fromFile =>
    match ofSetting? (tree fromFile env) with
    | none => .error .settings
    | some c =>
      match c.jobs.validate with
      | .ok _ => .ok c
      | .error e => .error (.config e)

def load (files : FileTree) (path : String) (env : Environment) : Except SyncError SyncConfig :=
  ofContents (SettingsFile.settings? files path) env

end Downline.SyncConfig
