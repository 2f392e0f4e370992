import Downline.Config.Sync
import Downline.Journal
import Downline.Rekey.Schedule

/-!
Maintenance: propagation, then re-keying, so that freshly filled people can bound the chains. The
daemon does so again and again; a cycle that fails does not keep it from the next one.
-/

namespace Downline

/-- The two reports of one cycle. -/
structure CycleReport where
  propagation : RunReport
  rekey : RunReport
deriving DecidableEq, Inhabited, Repr

/-- What a cycle did on the way to its result. -/
structure CycleRun where
  result : Except SyncError CycleReport
  batches : List BatchEntry := []
  settled : List Settled := []

/-- The stamps of the two runs of a cycle. -/
structure CycleStamps where
  propagation : Stamp
  rekey : Stamp
deriving DecidableEq, Inhabited, Repr

/-- What maintenance works on: a store, and the files of the journal. -/
structure Site (σ : Type) where
  store : σ
  files : FileTree := {}

namespace Maintenance

/-- The end of a cycle, after a re-keying run has left the store and the propagation half is on
record. -/
def conclude {σ : Type} (journal : Option Journal) (stamp : Stamp) (propagation : RunReport)
    (batches : List BatchEntry) (files : FileTree) :
    Except Halt RekeyRun × σ → Except Halt CycleRun × Site σ
  | (.error h, store) => (.error h, { store, files })
  | (.ok run, store) =>
    match run.result with
    | .error e =>
      (.ok { result := .error (.graph e), batches, settled := run.settled }, { store, files })
    | .ok report =>
      match record journal stamp (.rekey report) files with
      | .error e => (.ok { result := .error e, batches, settled := run.settled }, { store, files })
      | .ok (rekey, files) =>
        (.ok { result := .ok { propagation, rekey }, batches, settled := run.settled },
          { store, files })

def cycle {σ : Type} (S : Store σ) (cfg : JobConfig) (journal : Option Journal)
    (stamps : CycleStamps) (site : Site σ) : Except Halt CycleRun × Site σ :=
  match (propagation cfg).run S site.store with
  | (.error h, store) => (.error h, { site with store })
  | (.ok (.error e), store) => (.ok { result := .error (.graph e) }, { site with store })
  | (.ok (.ok run), store) =>
    match record journal stamps.propagation (.propagation run.report) site.files with
    | .error e => (.ok { result := .error e, batches := run.batches }, { site with store })
    | .ok (report, files) =>
      conclude journal stamps.rekey report run.batches files (Rekey.run S cfg store)

/-- What the daemon did so far. -/
structure DaemonLog where
  cycles : Nat := 0
  failedCycles : Nat := 0
  batches : List BatchEntry := []
  settled : List Settled := []

def DaemonLog.add (log : DaemonLog) (run : CycleRun) : DaemonLog :=
  let log := { log with
    batches := log.batches ++ run.batches, settled := log.settled ++ run.settled }
  match run.result with
  | .ok _ => { log with cycles := log.cycles + 1 }
  | .error _ => { log with failedCycles := log.failedCycles + 1 }

/-- A tick that comes more than this many milliseconds late moves the ticks after it. -/
def tolerance : Nat := 5

/-- The tick after the one that was set for `due` and came at `at`. -/
def nextTick (period due came : Nat) : Nat :=
  if due + tolerance < came then came + period else due + period

/-- Works at every tick before `until` on the store's clock; `due` is the next tick. `rest` makes the
clock go on to a time. A cycle that breaks down breaks the daemon down. -/
def daemon {σ : Type} (S : Store σ) (cfg : JobConfig) (journal : Option Journal)
    (stamps : Nat → CycleStamps) (rest : Nat → σ → σ) (period stop : Nat) :
    (fuel due : Nat) → (log : DaemonLog) → Site σ → Except Panic DaemonLog × Site σ
  | 0, _, log, site => (.ok log, site)
  | fuel + 1, due, log, site =>
    let came := max due (S.now site.store)
    if stop ≤ came then (.ok log, site)
    else
      let n := log.cycles + log.failedCycles
      match cycle S cfg journal (stamps n) { site with store := rest came site.store } with
      | (.error (.panic reason), site) => (.error reason, site)
      | (.error .stopped, site) => (.ok log, site)
      | (.ok run, site) =>
        daemon S cfg journal stamps rest period stop fuel (nextTick period due came) (log.add run)
          site

/-- The milliseconds between two ticks; the shortest interval is a second. -/
def periodMs (schedule : ScheduleConfig) : Nat := max 1 schedule.intervalSecs * 1000

/-- The daemon from now on until a time. There is at most one cycle a period. -/
def runDaemon {σ : Type} (S : Store σ) (cfg : JobConfig) (journal : Option Journal)
    (schedule : ScheduleConfig) (stamps : Nat → CycleStamps) (rest : Nat → σ → σ)
    (stop : Nat) (site : Site σ) : Except Panic DaemonLog × Site σ :=
  let period := periodMs schedule
  let start := S.now site.store
  daemon S cfg journal stamps rest period stop ((stop - start) / period + 1) start {} site

end Maintenance

end Downline
