import Downline.Program
import Downline.Rekey.Plan

/-!
The task that re-keys one candidate: it reads the path anew, plans, and writes. Between any two of
its calls the store may change, so every write is guarded.
-/

namespace Downline

/-- What a re-keying task did. -/
inductive TaskOutcome where
  | rekeyed (written : Nat)
  | skipped (reason : SkipReason)
deriving DecidableEq, Inhabited, Repr

/-- Where a re-keying task stands. -/
inductive TaskPhase where
  /-- About to read the path. -/
  | verify
  /-- About to write the holders of the placeholder. -/
  | commit (plan : RekeyPlan)
  /-- About to write an end with no login, after all the others were written. -/
  | absorb (plan : RekeyPlan) (last : PersonId) (written : Nat)
  | ended (result : Except StoreError TaskOutcome)

/-- What all tasks of a run share. -/
structure TaskSettings where
  placeholder : String
  maxDepth : UInt32
deriving DecidableEq, Inhabited, Repr

/-- A call, and where its answer leads. -/
structure Request (β : Type) where
  call : Call
  next : Except StoreError call.Answer → β

namespace TaskPhase

/-- After the path was read: plan, or leave it alone. -/
def afterPath (settings : TaskSettings) :
    Except StoreError (Option (List PathNode)) → TaskPhase
  | .error e => ended (.error e)
  | .ok none => ended (.ok (.skipped .pathGone))
  | .ok (some path) =>
    match planRekey path settings.placeholder with
    | .error reason => ended (.ok (.skipped reason))
    | .ok plan => commit plan

/-- After the holders were written: an end with no login follows only if every one of them was. -/
def afterCommit (plan : RekeyPlan) : Except StoreError Nat → TaskPhase
  | .error e => ended (.error e)
  | .ok written =>
    match plan.emptyEnd with
    | some last =>
      if written = plan.targets.length then absorb plan last written
      else ended (.ok (.rekeyed written))
    | none => ended (.ok (.rekeyed written))

/-- After the end was written. -/
def afterAbsorb (written : Nat) : Except StoreError Nat → TaskPhase
  | .error e => ended (.error e)
  | .ok n => ended (.ok (.rekeyed (written + n)))

/-- The next call of a task, until it has ended. -/
def request? (settings : TaskSettings) (candidate : ChainCandidate) :
    TaskPhase → Option (Request TaskPhase)
  | verify => some {
      call := .downwardPath candidate.start candidate.last settings.maxDepth
      next := afterPath settings }
  | commit plan => some {
      call := .setCredentials plan.targets plan.credentials
        (.holdsPlaceholder settings.placeholder)
      next := afterCommit plan }
  | absorb plan last written => some {
      call := .setCredentials [last] plan.credentials (.notFull settings.placeholder)
      next := afterAbsorb written }
  | ended _ => none

/-- The phase after one call made at once; a task that has ended stays as it is. -/
def advance {σ : Type} (S : Store σ) (settings : TaskSettings) (candidate : ChainCandidate)
    (phase : TaskPhase) (s : σ) : Except Halt TaskPhase × σ :=
  match phase.request? settings candidate with
  | none => (.ok phase, s)
  | some r =>
    match S.call r.call s with
    | (.ok a, s') => (.ok (r.next (.ok a)), s')
    | (.error (.error e), s') => (.ok (r.next (.error e)), s')
    | (.error (.halt h), s') => (.error h, s')

end TaskPhase

/-- A whole re-keying task with nothing else going on: at most three calls. -/
def rekeyChain {σ : Type} (S : Store σ) (settings : TaskSettings) (candidate : ChainCandidate)
    (s : σ) : Except Halt TaskPhase × σ :=
  go 3 .verify s
where
  /-- Makes up to `n` more calls. -/
  go : Nat → TaskPhase → σ → Except Halt TaskPhase × σ
    | 0, phase, s => (.ok phase, s)
    | n + 1, phase, s =>
      match phase.advance S settings candidate s with
      | (.ok phase', s') => go n phase' s'
      | (.error h, s') => (.error h, s')

end Downline
