import Downline.Rekey.Pool

/-!
The schedule that a pass follows when it is run on one thread. Tasks are started while permits last.
A task goes on from one call to the next without a pause, and while calls take time the one due first
is answered first; so with calls that take no time, each task runs to its end before the next begins.
-/

namespace Downline

namespace Pool

/-- How soon a move is made; lower comes first, and among equals the one due first. -/
structure Urgency where
  rank : Nat
  due : Nat := 0
deriving DecidableEq, Inhabited, Repr

/-- Whether a move comes strictly before another. -/
def Urgency.before (a b : Urgency) : Bool :=
  decide (a.rank < b.rank) || (a.rank == b.rank && decide (a.due < b.due))

/-- The rank of the dispatcher's own moves: after a task that can go on at once, before a task that
waits for an answer or has made no call yet. -/
def dispatcherRank : Nat := 1

/-- The next move of the task at a place, and how soon it is made. -/
def taskMove (now i : Nat) (t : Task) : Urgency × Move :=
  match t.status with
  | .finished _ => (⟨0, 0⟩, .join i)
  | .leaving _ => (⟨0, 0⟩, .leave i)
  | .releasing _ => (⟨0, 0⟩, .release i)
  | .ready .verify => (⟨3, 0⟩, .enter i)
  | .ready _ => (⟨0, 0⟩, .enter i)
  | .calling _ ticket =>
    if ticket.due ≤ now then (⟨2, 0⟩, .answer i) else (⟨4, ticket.due⟩, .answer i)

/-- The most urgent move of any task; of equals, that of the task started first. -/
def urgentMove (now : Nat) :
    (i : Nat) → List Task → (best : Option (Urgency × Move)) → Option (Urgency × Move)
  | _, [], best => best
  | i, t :: rest, best =>
    let m := taskMove now i t
    match best with
    | some b => urgentMove now (i + 1) rest (if m.1.before b.1 then some m else some b)
    | none => urgentMove now (i + 1) rest (some m)

/-- The next move of the dispatcher, if it can make one. -/
def dispatcherMove (p : Pool) : Option Move :=
  if p.holding then some .launch
  else if p.waiting.isEmpty || p.permits == 0 then none
  else some .acquire

def nextMove {σ : Type} (S : Store σ) (p : Pool) (s : σ) : Option Move :=
  if p.holding then some .launch
  else
    match p.dispatcherMove, urgentMove (S.now s) 0 p.tasks none with
    | some d, some (u, m) => some (if u.rank < dispatcherRank then m else d)
    | some d, none => some d
    | none, some (_, m) => some m
    | none, none => none

/-- Makes up to `n` moves of the schedule. -/
def drive {σ : Type} (S : Store σ) : (n : Nat) → Pool × σ → Pool × σ
  | 0, state => state
  | n + 1, state =>
    match (nextMove S state.1 state.2).bind (step? S · state) with
    | some state' => drive S n state'
    | none => state

/-- No schedule makes more moves: a task is acquired, launched, makes at most three calls of two
moves each, leaves, releases its permit and is joined. -/
def maxMoves (candidates : Nat) : Nat := 11 * candidates

end Pool

/-- A finished pass: its report, and its candidates in the order in which they were settled. -/
structure RekeyPass where
  report : RekeyReport
  settled : List Settled

def Settled.isStopped (s : Settled) : Bool :=
  match s.result with
  | .broke .stopped => true
  | _ => false

/-- What a pass that is over comes to. A task that was cut off cuts the run off. -/
def Pool.outcome (p : Pool) : Except Halt RekeyPass :=
  let settled := p.settled.reverse
  if settled.any Settled.isStopped then .error .stopped else .ok { report := p.report, settled }

/-- One task a candidate, with at most `maxInFlight` of them in flight at once. -/
def dispatch {σ : Type} (S : Store σ) (cfg : JobConfig) (candidates : List ChainCandidate) (s : σ) :
    Except Halt RekeyPass × σ :=
  match Pool.start cfg candidates with
  | .error reason => (.error (.panic reason), s)
  | .ok p =>
    let (p, s) := Pool.drive S (Pool.maxMoves candidates.length) (p, s)
    (p.outcome, s)

/-- A re-keying run: its report or the error that ended it, and all candidates that it settled. -/
structure RekeyRun where
  result : Except StoreError RekeyReport
  settled : List Settled

namespace Rekey

/-- Discovery, then a task a candidate. -/
def pass {σ : Type} (S : Store σ) (cfg : JobConfig) (s : σ) :
    Except Halt (Except StoreError RekeyPass) × σ :=
  match S.call (.rekeyCandidates cfg.placeholderPassword cfg.maxDepth) s with
  | (.error (.error e), s) => (.ok (.error e), s)
  | (.error (.halt h), s) => (.error h, s)
  | (.ok candidates, s) =>
    let (p, s) := dispatch S cfg candidates s
    (p.map .ok, s)

/-- Up to `n` more passes, until one writes nothing. -/
def passes {σ : Type} (S : Store σ) (cfg : JobConfig) :
    (n : Nat) → (total : RekeyReport) → (settled : List Settled) → σ → Except Halt RekeyRun × σ
  | 0, total, settled, s => (.ok { result := .ok total, settled }, s)
  | n + 1, total, settled, s =>
    match pass S cfg s with
    | (.error h, s) => (.error h, s)
    | (.ok (.error e), s) => (.ok { result := .error e, settled }, s)
    | (.ok (.ok p), s) =>
      let total := { total.absorb p.report with passes := total.passes + 1 }
      let settled := settled ++ p.settled
      if p.report.nodesWritten = 0 then (.ok { result := .ok total, settled }, s)
      else passes S cfg n total settled s

/-- Repeats discovery and dispatch until a pass writes nothing, at most `maxPasses` times and at
least once. Chains that share people hinder each other within a pass and qualify again in the next. -/
def untilConverged {σ : Type} (S : Store σ) (cfg : JobConfig) (maxPasses : Nat) (s : σ) :
    Except Halt RekeyRun × σ :=
  passes S cfg (max 1 maxPasses) {} [] s

/-- A run of as many passes as are configured. -/
def run {σ : Type} (S : Store σ) (cfg : JobConfig) (s : σ) : Except Halt RekeyRun × σ :=
  untilConverged S cfg cfg.maxPasses s

end Rekey

end Downline
