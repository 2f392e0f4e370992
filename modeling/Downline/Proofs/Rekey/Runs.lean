import Downline.Proofs.Rekey.Progress

/-! Re-keying under every schedule: the runs that are like those of the jobs except that in each pass the
dispatcher and its tasks move in any order. The jobs' own schedule is one of them. -/

namespace Downline

variable {σ : Type}

/-- A pass over these candidates, from its start to its end by some schedule, and what it comes to. -/
inductive Dispatched (S : Store σ) (cfg : JobConfig) (candidates : List ChainCandidate) :
    σ → Except Halt RekeyPass × σ → Prop where
  | refused {s : σ} {reason : Panic} (hp : Pool.start cfg candidates = .error reason) :
      Dispatched S cfg candidates s (.error (.panic reason), s)
  | ended {s s' : σ} {p p' : Pool} {moves : List Pool.Move} (hp : Pool.start cfg candidates = .ok p)
      (hm : Pool.replay? S moves (p, s) = some (p', s')) (ho : p'.isOver = true) :
      Dispatched S cfg candidates s (p'.outcome, s')

theorem dispatched_dispatch {S : Store σ} {cfg : JobConfig} (hn : cfg.maxInFlight ≠ 0)
    (candidates : List ChainCandidate) (s : σ) :
    Dispatched S cfg candidates s (dispatch S cfg candidates s) := by
  rw [dispatch]
  cases hp : Pool.start cfg candidates with
  | error reason => exact .refused hp
  | ok p =>
    obtain ⟨hl, hleft⟩ := Pool.ledger_of_start hp
    obtain ⟨moves, hm⟩ := Pool.exists_replay_drive (S := S) (Pool.maxMoves candidates.length) (p, s)
    exact .ended hp hm (Pool.isOver_drive hl (Nat.pos_of_ne_zero hn) (Nat.le_of_eq hleft))

/-- A pass whose permits the semaphore can hold comes to its end. -/
theorem Dispatched.exists_schedule {S : Store σ} {cfg : JobConfig} {candidates : List ChainCandidate}
    {s s' : σ} {r : Except Halt RekeyPass} (hlimit : cfg.maxInFlight ≤ maxPermits)
    (h : Dispatched S cfg candidates s (r, s')) : ∃ p p' moves, Pool.start cfg candidates = .ok p ∧
      Pool.replay? S moves (p, s) = some (p', s') ∧ p'.isOver = true ∧ r = p'.outcome := by
  cases h with
  | refused hp =>
    rw [Pool.start, if_neg (Nat.not_lt.mpr hlimit)] at hp
    cases hp
  | ended hp hm ho => exact ⟨_, _, _, hp, hm, ho, rfl⟩

namespace Rekey

/-- Discovery and one pass by some schedule. -/
inductive Passed (S : Store σ) (cfg : JobConfig) :
    σ → Except Halt (Except StoreError RekeyPass) × σ → Prop where
  | undiscovered {s s' : σ} {e : StoreError}
      (hc : S.call (.rekeyCandidates cfg.placeholderPassword cfg.maxDepth) s =
        (.error (.error e), s')) : Passed S cfg s (.ok (.error e), s')
  | halted {s s' : σ} {h : Halt}
      (hc : S.call (.rekeyCandidates cfg.placeholderPassword cfg.maxDepth) s =
        (.error (.halt h), s')) : Passed S cfg s (.error h, s')
  | dispatched {s s₁ s' : σ} {candidates : List ChainCandidate} {r : Except Halt RekeyPass}
      (hc : S.call (.rekeyCandidates cfg.placeholderPassword cfg.maxDepth) s = (.ok candidates, s₁))
      (hd : Dispatched S cfg candidates s₁ (r, s')) : Passed S cfg s (r.map .ok, s')

/-- Up to `n` more passes, each by some schedule, until one writes nothing. -/
inductive Repeated (S : Store σ) (cfg : JobConfig) : Nat → RekeyReport → List Settled →
    σ → Except Halt RekeyRun × σ → Prop where
  | spent {total : RekeyReport} {settled : List Settled} {s : σ} :
      Repeated S cfg 0 total settled s (.ok { result := .ok total, settled }, s)
  | halted {n : Nat} {total : RekeyReport} {settled : List Settled} {s s' : σ} {h : Halt}
      (hp : Passed S cfg s (.error h, s')) :
      Repeated S cfg (n + 1) total settled s (.error h, s')
  | failed {n : Nat} {total : RekeyReport} {settled : List Settled} {s s' : σ} {e : StoreError}
      (hp : Passed S cfg s (.ok (.error e), s')) :
      Repeated S cfg (n + 1) total settled s (.ok { result := .error e, settled }, s')
  | converged {n : Nat} {total : RekeyReport} {settled : List Settled} {s s' : σ} {p : RekeyPass}
      (hp : Passed S cfg s (.ok (.ok p), s')) (hz : p.report.nodesWritten = 0) :
      Repeated S cfg (n + 1) total settled s
        (.ok { result := .ok { total.absorb p.report with passes := total.passes + 1 },
               settled := settled ++ p.settled }, s')
  | again {n : Nat} {total : RekeyReport} {settled : List Settled} {s s₁ : σ} {p : RekeyPass}
      {out : Except Halt RekeyRun × σ} (hp : Passed S cfg s (.ok (.ok p), s₁))
      (hz : p.report.nodesWritten ≠ 0)
      (hrest : Repeated S cfg n { total.absorb p.report with passes := total.passes + 1 }
        (settled ++ p.settled) s₁ out) :
      Repeated S cfg (n + 1) total settled s out

/-- After `i` passes, each by some schedule, a run that may go on goes on: all of them have written. -/
inductive Onward (S : Store σ) (cfg : JobConfig) : Nat → σ → σ → Prop where
  | start {s : σ} : Onward S cfg 0 s s
  | pass {i : Nat} {s s₁ s₂ : σ} {p : RekeyPass} (hp : Passed S cfg s (.ok (.ok p), s₁))
      (hz : p.report.nodesWritten ≠ 0) (hrest : Onward S cfg i s₁ s₂) : Onward S cfg (i + 1) s s₂

/-- A re-keying run of as many passes as are configured, each by some schedule. -/
def Ran (S : Store σ) (cfg : JobConfig) (s : σ) (out : Except Halt RekeyRun × σ) : Prop :=
  Repeated S cfg (max 1 cfg.maxPasses) {} [] s out

/-- A moment of a run of at most `n` passes: before it, after a discovery, or in the middle of a pass. -/
inductive Moment (S : Store σ) (cfg : JobConfig) : Nat → σ → σ → Prop where
  | before {n : Nat} {s : σ} : Moment S cfg n s s
  | discovered {n : Nat} {s : σ} :
      Moment S cfg (n + 1) s (S.call (.rekeyCandidates cfg.placeholderPassword cfg.maxDepth) s).2
  | during {n : Nat} {s s₁ s' : σ} {candidates : List ChainCandidate} {p p' : Pool}
      {moves : List Pool.Move}
      (hc : S.call (.rekeyCandidates cfg.placeholderPassword cfg.maxDepth) s = (.ok candidates, s₁))
      (hp : Pool.start cfg candidates = .ok p)
      (hm : Pool.replay? S moves (p, s₁) = some (p', s')) : Moment S cfg (n + 1) s s'
  | later {n : Nat} {s s₁ s' : σ} {p : RekeyPass} (hp : Passed S cfg s (.ok (.ok p), s₁))
      (hz : p.report.nodesWritten ≠ 0) (hrest : Moment S cfg n s₁ s') : Moment S cfg (n + 1) s s'

variable {S : Store σ} {cfg : JobConfig} {s s' : σ}

/-! ### The jobs' own schedule -/

theorem passed_pass (hn : cfg.maxInFlight ≠ 0) (s : σ) : Passed S cfg s (pass S cfg s) := by
  rw [pass]
  split
  next hc => exact .undiscovered hc
  next hc => exact .halted hc
  next candidates s₁ hc => exact .dispatched hc (dispatched_dispatch hn candidates s₁)

theorem repeated_passes (hn : cfg.maxInFlight ≠ 0) (n : Nat) (total : RekeyReport)
    (settled : List Settled) (s : σ) :
    Repeated S cfg n total settled s (passes S cfg n total settled s) := by
  induction n generalizing total settled s with
  | zero => exact .spent
  | succ n ih =>
    have hpass := passed_pass (S := S) hn s
    rw [passes]
    split
    next hp => rw [hp] at hpass; exact .halted hpass
    next hp => rw [hp] at hpass; exact .failed hpass
    next p s₁ hp =>
      rw [hp] at hpass
      dsimp only
      split
      next hz => exact .converged hpass hz
      next hz => exact .again hpass hz (ih _ _ s₁)

theorem ran_run (hn : cfg.maxInFlight ≠ 0) (s : σ) : Ran S cfg s (run S cfg s) :=
  repeated_passes hn _ _ _ s

theorem pass_of_discovery (cfg : JobConfig) {candidates : List ChainCandidate}
    (hc : S.call (.rekeyCandidates cfg.placeholderPassword cfg.maxDepth) s = (.ok candidates, s')) :
    pass S cfg s = ((dispatch S cfg candidates s').1.map .ok, (dispatch S cfg candidates s').2) := by
  rw [pass, hc]

/-- A run stops behind its first pass if that pass writes nothing. -/
theorem untilConverged_of_pass {p : RekeyPass} (hp : pass S cfg s = (.ok (.ok p), s'))
    (hz : p.report.nodesWritten = 0) (n : Nat) : untilConverged S cfg n s =
      (.ok { result := .ok { ({} : RekeyReport).absorb p.report with passes := 1 },
             settled := p.settled }, s') := by
  obtain ⟨m, hm⟩ : ∃ m, max 1 n = m + 1 := ⟨max 1 n - 1, by omega⟩
  rw [untilConverged, hm, passes, hp]
  dsimp only
  rw [if_pos hz]
  rfl

/-- A run of one pass reports that pass. -/
theorem untilConverged_one {p : RekeyPass} (hp : pass S cfg s = (.ok (.ok p), s')) :
    untilConverged S cfg 1 s =
      (.ok { result := .ok { ({} : RekeyReport).absorb p.report with passes := 1 },
             settled := p.settled }, s') := by
  rw [untilConverged, Nat.max_self, passes, hp]
  dsimp only
  split <;> rfl

/-! ### The last pass -/

/-- The last of the passes before the run goes on. -/
theorem Onward.exists_last {i : Nat} (h : Onward S cfg (i + 1) s s') :
    ∃ s₁ p, Onward S cfg i s s₁ ∧ Passed S cfg s₁ (.ok (.ok p), s') ∧
      p.report.nodesWritten ≠ 0 := by
  generalize hn : i + 1 = n at h
  induction h generalizing i with
  | start => cases hn
  | @pass j s s₁ s₂ p hp hz hrest ih =>
    obtain rfl : i = j := Nat.succ.inj hn
    cases i with
    | zero =>
      cases hrest
      exact ⟨s, p, .start, hp, hz⟩
    | succ i =>
      obtain ⟨s', p', hon, hlast⟩ := ih rfl
      exact ⟨s', p', .pass hp hz hon, hlast⟩

/-- A run whose passes all end well ends well. -/
theorem Repeated.exists_report {n : Nat} {total : RekeyReport} {settled : List Settled}
    {out : Except Halt RekeyRun × σ} (h : Repeated S cfg n total settled s out)
    (hpass : ∀ i s₁ r s₂, Onward S cfg i s s₁ → Passed S cfg s₁ (r, s₂) → ∃ p, r = .ok (.ok p)) :
    ∃ run report, out.1 = .ok run ∧ run.result = .ok report := by
  induction h with
  | spent | converged => exact ⟨_, _, rfl, rfl⟩
  | halted hp | failed hp =>
    obtain ⟨p, hr⟩ := hpass 0 _ _ _ .start hp
    cases hr
  | again hp hz _ ih => exact ih fun i s₁ r s₂ hon => hpass (i + 1) s₁ r s₂ (.pass hp hz hon)

/-- A run that ends well has used up its passes, or its last pass has written nothing. -/
theorem Repeated.last_pass {n : Nat} {total report : RekeyReport} {settled : List Settled}
    {run : RekeyRun} (h : Repeated S cfg n total settled s (.ok run, s'))
    (hr : run.result = .ok report) :
    (Onward S cfg n s s' ∧ report.passes = total.passes + n) ∨
      ∃ i s₁ p, i < n ∧ Onward S cfg i s s₁ ∧ Passed S cfg s₁ (.ok (.ok p), s') ∧
        p.report.nodesWritten = 0 ∧ report.passes = total.passes + (i + 1) := by
  generalize ho : (Except.ok run, s') = out at h
  induction h with
  | spent =>
    cases ho
    cases hr
    exact .inl ⟨.start, rfl⟩
  | halted => cases ho
  | failed =>
    cases ho
    cases hr
  | converged hp hz =>
    cases ho
    cases hr
    exact .inr ⟨0, _, _, Nat.succ_pos _, .start, hp, hz, rfl⟩
  | again hp hz _ ih =>
    rcases ih ho with ⟨hon, he⟩ | ⟨i, s₁, p, hi, hon, hlast, hzero, he⟩
    · exact .inl ⟨.pass hp hz hon, by rw [he, Nat.add_assoc, Nat.add_comm 1]⟩
    · refine .inr ⟨i + 1, s₁, p, Nat.succ_lt_succ hi, .pass hp hz hon, hlast, hzero, ?_⟩
      rw [he, Nat.add_assoc, Nat.add_comm 1]

/-! ### Moments -/

/-- The end of a pass is a moment of the run. -/
theorem Passed.moment {r : Except Halt (Except StoreError RekeyPass)} {n : Nat}
    (h : Passed S cfg s (r, s')) : Moment S cfg (n + 1) s s' := by
  have hdiscovered : Moment S cfg (n + 1) s _ := .discovered
  cases h with
  | undiscovered hc | halted hc => rwa [hc] at hdiscovered
  | dispatched hc hd =>
    cases hd with
    | refused hp => rwa [hc] at hdiscovered
    | ended hp hm ho => exact .during hc hp hm

/-- The end of a run is one of its moments. -/
theorem Repeated.moment {n : Nat} {total : RekeyReport} {settled : List Settled}
    {r : Except Halt RekeyRun} (h : Repeated S cfg n total settled s (r, s')) :
    Moment S cfg n s s' := by
  generalize ho : (r, s') = out at h
  induction h generalizing r s' with
  | spent => cases ho; exact .before
  | halted hp | failed hp | converged hp => cases ho; exact hp.moment
  | again hp hz _ ih => exact .later hp hz (ih ho)

/-! ### Invariants of the store -/

section Keeps

variable {P : Call → Prop} {Q : TaskPhase → Prop} {I : σ → Prop} (hk : S.Keeps P I)
  (hdiscovery : P (.rekeyCandidates cfg.placeholderPassword cfg.maxDepth))
  (hasks : TaskSettings.Asks ⟨cfg.placeholderPassword, cfg.maxDepth⟩ P Q)
include hk

section Pass

include hasks

theorem keeps_of_schedule {candidates : List ChainCandidate} {p p' : Pool}
    {moves : List Pool.Move} (hp : Pool.start cfg candidates = .ok p)
    (hm : Pool.replay? S moves (p, s) = some (p', s')) (hs : I s) : I s' := by
  refine Pool.keeps_of_replay (Q := Q) hk hp ?_ hm hs
  rwa [Pool.settings_of_start hp]

theorem keeps_of_dispatched {candidates : List ChainCandidate} {r : Except Halt RekeyPass}
    (h : Dispatched S cfg candidates s (r, s')) (hs : I s) : I s' := by
  cases h with
  | refused hp => exact hs
  | ended hp hm ho => exact keeps_of_schedule hk hasks hp hm hs

end Pass

include hdiscovery

theorem keeps_of_discovery {r : Except Fault (List ChainCandidate)}
    (hc : S.call (.rekeyCandidates cfg.placeholderPassword cfg.maxDepth) s = (r, s'))
    (hs : I s) : I s' := by
  have hkept := hk.call hdiscovery hs
  rwa [hc] at hkept

include hasks

theorem keeps_of_passed {r : Except Halt (Except StoreError RekeyPass)}
    (h : Passed S cfg s (r, s')) (hs : I s) : I s' := by
  cases h with
  | undiscovered hc | halted hc => exact keeps_of_discovery hk hdiscovery hc hs
  | dispatched hc hd =>
    exact keeps_of_dispatched hk hasks hd (keeps_of_discovery hk hdiscovery hc hs)

/-- If every call that re-keying may make keeps an invariant of the store, it holds at every moment of a
run. -/
theorem keeps_of_moment {n : Nat} (h : Moment S cfg n s s') (hs : I s) : I s' := by
  induction h with
  | before => exact hs
  | discovered => exact hk.call hdiscovery hs
  | during hc hp hm =>
    exact keeps_of_schedule hk hasks hp hm (keeps_of_discovery hk hdiscovery hc hs)
  | later hp hz _ ih => exact ih (keeps_of_passed hk hdiscovery hasks hp hs)

end Keeps

end Rekey

end Downline
