import Downline.Config.Job
import Downline.Rekey.Task

/-!
One re-keying pass as a transition system. A dispatcher starts one task a candidate, each under a
permit; tasks make their store calls in any order. A schedule is a list of moves, so a statement
about every interleaving is one about every list of moves that the pool can make.
-/

namespace Downline

/-- What one or more re-keying passes did. Over memory with nobody else about, no more people are
written than there are. -/
structure RekeyReport where
  passes : Nat := 0
  candidates : Nat := 0
  rekeyed : Nat := 0
  skipped : Nat := 0
  failed : Nat := 0
  nodesWritten : Nat := 0
  /-- The most tasks that were in flight at once. -/
  peakInFlight : Nat := 0
deriving DecidableEq, Inhabited, Repr

/-- How a task came to its end. -/
inductive TaskResult where
  | returned (result : Except StoreError TaskOutcome)
  /-- The task broke down or was cut off. -/
  | broke (reason : Halt)

/-- Counts one finished task. -/
def RekeyReport.tally (r : RekeyReport) : TaskResult → RekeyReport
  | .returned (.ok (.rekeyed written)) =>
    { r with rekeyed := r.rekeyed + 1, nodesWritten := r.nodesWritten + written }
  | .returned (.ok (.skipped _)) => { r with skipped := r.skipped + 1 }
  | .returned (.error _) => { r with failed := r.failed + 1 }
  | .broke _ => { r with failed := r.failed + 1 }

/-- Adds a pass to the totals of a run. -/
def RekeyReport.absorb (total pass : RekeyReport) : RekeyReport :=
  { total with
    candidates := total.candidates + pass.candidates
    rekeyed := total.rekeyed + pass.rekeyed
    skipped := total.skipped + pass.skipped
    failed := total.failed + pass.failed
    nodesWritten := total.nodesWritten + pass.nodesWritten
    peakInFlight := max total.peakInFlight pass.peakInFlight }

/-- The state of a started task. -/
inductive TaskStatus where
  /-- Between two calls, or before the first. -/
  | ready (phase : TaskPhase)
  /-- A call is outstanding. -/
  | calling (phase : TaskPhase) (ticket : Ticket)
  /-- The result is known; the gauge still counts the task. -/
  | leaving (result : TaskResult)
  /-- The gauge no longer counts the task; its permit is still out. -/
  | releasing (result : TaskResult)
  /-- The permit is back; the dispatcher has not taken note yet. -/
  | finished (result : TaskResult)

/-- A started task. -/
structure Task where
  candidate : ChainCandidate
  status : TaskStatus

/-- Whether a task still runs. -/
def Task.isUnfinished (t : Task) : Bool :=
  match t.status with
  | .finished _ => false
  | _ => true

/-- Whether a store call of the task is outstanding. -/
def Task.isCalling (t : Task) : Bool :=
  match t.status with
  | .calling .. => true
  | _ => false

/-- A finished candidate and its result. -/
structure Settled where
  candidate : ChainCandidate
  result : TaskResult

/-- A pass under way. -/
structure Pool where
  settings : TaskSettings
  /-- How many candidates the pass was given. -/
  candidates : Nat
  /-- Candidates whose task has not been started. -/
  waiting : List ChainCandidate
  /-- Permits that nobody holds. -/
  permits : Nat
  /-- Whether the dispatcher holds the permit of the next task. -/
  holding : Bool := false
  /-- Started tasks that the dispatcher has not taken note of, in the order of their start. -/
  tasks : List Task := []
  /-- The gauge of tasks in flight. -/
  inFlight : Nat := 0
  /-- The highest value of the gauge. -/
  peak : Nat := 0
  /-- Tasks that the dispatcher has taken note of, the latest first. -/
  settled : List Settled := []

namespace Pool

/-- A pass over these candidates before its first move. It breaks down at once when the semaphore
cannot hold the permits. -/
def start (cfg : JobConfig) (candidates : List ChainCandidate) : Except Panic Pool :=
  if maxPermits < cfg.maxInFlight then .error .tooManyPermits
  else .ok {
    settings := { placeholder := cfg.placeholderPassword, maxDepth := cfg.maxDepth }
    candidates := candidates.length
    waiting := candidates
    permits := cfg.maxInFlight }

/-- What can happen next in a pass. A number names a task by its place. -/
inductive Move where
  /-- The dispatcher takes a permit for the next candidate. -/
  | acquire
  /-- The dispatcher starts the task that it holds a permit for. -/
  | launch
  /-- A task enters its next call. -/
  | enter (i : Nat)
  /-- The outstanding call of a task is answered. -/
  | answer (i : Nat)
  /-- A task with a result leaves the gauge. -/
  | leave (i : Nat)
  /-- A task that has left the gauge gives its permit back. -/
  | release (i : Nat)
  /-- The dispatcher takes note of a finished task. -/
  | join (i : Nat)
deriving DecidableEq, Inhabited, Repr

/-- Gives the task at a place another status. -/
def setStatus (p : Pool) (i : Nat) (status : TaskStatus) : Pool :=
  { p with tasks := p.tasks.modify i fun t => { t with status } }

/-- The status of a task that has reached a phase. -/
def statusAt : TaskPhase → TaskStatus
  | .ended result => .leaving (.returned result)
  | phase => .ready phase

/-- The task at a place enters its next call, if it is about to make one. -/
def enter? {σ : Type} (S : Store σ) (i : Nat) (p : Pool) (s : σ) : Option (Pool × σ) := do
  let task ← p.tasks[i]?
  match task.status with
  | .ready phase =>
    let request ← phase.request? p.settings task.candidate
    match S.enter request.call s with
    | (.ok ticket, s') => return (p.setStatus i (.calling phase ticket), s')
    | (.error (.error e), s') => return (p.setStatus i (statusAt (request.next (.error e))), s')
    | (.error (.halt h), s') => return (p.setStatus i (.leaving (.broke h)), s')
  | _ => none

/-- The outstanding call of the task at a place is carried out, if it has one. -/
def answer? {σ : Type} (S : Store σ) (i : Nat) (p : Pool) (s : σ) : Option (Pool × σ) := do
  let task ← p.tasks[i]?
  match task.status with
  | .calling phase ticket =>
    let request ← phase.request? p.settings task.candidate
    match S.finish request.call ticket s with
    | (.ok a, s') => return (p.setStatus i (statusAt (request.next (.ok a))), s')
    | (.error (.error e), s') => return (p.setStatus i (statusAt (request.next (.error e))), s')
    | (.error (.halt h), s') => return (p.setStatus i (.leaving (.broke h)), s')
  | _ => none

/-- The state after one move, if the pass can make it. -/
def step? {σ : Type} (S : Store σ) : Move → Pool × σ → Option (Pool × σ)
  | .acquire, (p, s) =>
    if p.holding || p.waiting.isEmpty || p.permits == 0 then none
    else some ({ p with holding := true, permits := p.permits - 1 }, s)
  | .launch, (p, s) =>
    match p.waiting with
    | [] => none
    | candidate :: rest =>
      if !p.holding then none
      else some ({ p with
        holding := false
        waiting := rest
        tasks := p.tasks ++ [{ candidate, status := .ready .verify }]
        inFlight := p.inFlight + 1
        peak := max p.peak (p.inFlight + 1) }, s)
  | .enter i, (p, s) => p.enter? S i s
  | .answer i, (p, s) => p.answer? S i s
  | .leave i, (p, s) =>
    match p.tasks[i]? with
    | some { status := .leaving result, .. } =>
      some ({ p.setStatus i (.releasing result) with inFlight := p.inFlight - 1 }, s)
    | _ => none
  | .release i, (p, s) =>
    match p.tasks[i]? with
    | some { status := .releasing result, .. } =>
      some ({ p.setStatus i (.finished result) with permits := p.permits + 1 }, s)
    | _ => none
  | .join i, (p, s) =>
    match p.tasks[i]? with
    | some { candidate, status := .finished result } =>
      if p.holding then none
      else some ({ p with
        tasks := p.tasks.eraseIdx i
        settled := { candidate, result } :: p.settled }, s)
    | _ => none

/-- The state after a schedule, if the pass can make its moves one after another. -/
def replay? {σ : Type} (S : Store σ) : List Move → Pool × σ → Option (Pool × σ)
  | [], state => some state
  | m :: rest, state => (step? S m state).bind (replay? S rest)

/-- A pass is over when every candidate has been started and every task has been taken note of. -/
def isOver (p : Pool) : Bool :=
  p.waiting.isEmpty && !p.holding && p.tasks.isEmpty

/-- The report of a pass that is over. -/
def report (p : Pool) : RekeyReport :=
  p.settled.foldr (fun s r => r.tally s.result)
    { passes := 1, candidates := p.candidates, peakInFlight := p.peak }

end Pool

end Downline
