import Downline.Config.Job
import Downline.Journal.FileTree
import Downline.Store.Call

/-!
Everything that can go wrong in maintenance, and the messages shown for it.
-/

namespace Downline

/-- Why a run report is not given back. -/
inductive JournalError where
  | notFound (id : String)
  /-- The hash of the report is not that of its content. -/
  | tampered (id : String)
  | other (text : String)
deriving DecidableEq, Inhabited, Repr

def JournalError.reason : JournalError → String
  | notFound id => s!"run report {id} not found"
  | tampered id => s!"integrity check failed for run report {id}"
  | other text => text

/-- Why a maintenance operation fails. -/
inductive SyncError where
  | graph (e : StoreError)
  | config (e : ConfigError)
  | settings
  | journal (e : JournalError)
  | task (text : String)
  /-- A text is not the document that is wanted. -/
  | serialization
  | io (e : FileError)
deriving DecidableEq, Inhabited, Repr

/-- The message shown for a failure, if it can be told from the error. -/
def SyncError.message? : SyncError → Option String
  | graph e => e.message?.map fun m => "Graph error: " ++ m
  | config e => some ("Config error: " ++ e.message)
  | settings => none
  | journal e => some ("Journal error: " ++ e.reason)
  | task text => some ("Task coordination error: " ++ text)
  | serialization => none
  | io _ => none

end Downline
