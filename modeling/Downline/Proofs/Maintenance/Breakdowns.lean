import Downline.Proofs.Discovery.Rounds
import Downline.Proofs.Outages
import Downline.Proofs.Propagation.Runs
import Downline.Proofs.Rekey.Counting

/-! What can break a job down whose configuration is accepted, over memory. Propagation always comes to a result.
A re-keying pass asks the semaphore for as many permits as are configured, whether or not it has candidates, and
a run searches the tree before each pass; nothing else breaks down, by whatever schedule the tasks move. -/

namespace Downline

open MemoryStore (store)

/-- What a pass over any candidates comes to: its end, unless the permits are too many for the semaphore. -/
inductive PassOutcome (cfg : JobConfig) : Except Halt RekeyPass → Prop where
  | ended (hlimit : cfg.maxInFlight ≤ maxPermits) (p : RekeyPass) : PassOutcome cfg (.ok p)
  | refused (hover : maxPermits < cfg.maxInFlight) :
      PassOutcome cfg (.error (.panic .tooManyPermits))

namespace Rekey

/-- What a run comes to: its result, unless the permits are too many for the semaphore, or a discovery breaks
down over a walk that is too long for the counter of its depth. -/
inductive RunOutcome (cfg : JobConfig) (s : MemoryStore) : Except Halt RekeyRun → Prop where
  | ended (hlimit : cfg.maxInFlight ≤ maxPermits) (run : RekeyRun) : RunOutcome cfg s (.ok run)
  | refused (hover : maxPermits < cfg.maxInFlight) :
      RunOutcome cfg s (.error (.panic .tooManyPermits))
  | undiscovered {i : Nat} {s₁ : MemoryStore} {start : PersonId} (hon : Onward store cfg i s s₁)
      (hmax : cfg.maxDepth = 4294967295)
      (hfull : s₁.tree.stateOf cfg.placeholderPassword start = .full)
      (hlong : s₁.tree.OverlongBelow cfg.placeholderPassword start) :
      RunOutcome cfg s (.error (.panic .depthOverflow))

end Rekey

section Passes

variable {σ : Type} {S : Store σ} {cfg : JobConfig} {candidates : List ChainCandidate}

/-- With too many permits no pass begins. -/
theorem Dispatched.eq_refused {s : σ} {out : Except Halt RekeyPass × σ}
    (h : Dispatched S cfg candidates s out) (hover : maxPermits < cfg.maxInFlight) :
    out = (.error (.panic .tooManyPermits), s) := by
  have hstart : Pool.start cfg candidates = .error .tooManyPermits := by
    rw [Pool.start, if_pos hover]
  cases h with
  | refused hp =>
    rw [hstart] at hp
    cases hp
    rfl
  | ended hp =>
    rw [hstart] at hp
    cases hp

theorem Dispatched.outcome {s : MemoryStore} {out : Except Halt RekeyPass × MemoryStore}
    (h : Dispatched store cfg candidates s out) : PassOutcome cfg out.1 := by
  rcases Nat.lt_or_ge maxPermits cfg.maxInFlight with hover | hlimit
  · rw [h.eq_refused hover]
    exact .refused hover
  · obtain ⟨p, hp, -⟩ := counted_of_dispatched hlimit h
    rw [hp]
    exact .ended hlimit p

end Passes

namespace Rekey

variable {cfg : JobConfig} {s s' : MemoryStore}

/-- A discovery breaks down over a walk, or a pass over its candidates is made. -/
theorem Passed.outcome {r : Except Halt (Except StoreError RekeyPass)}
    (h : Passed store cfg s (r, s')) :
    (∃ pass, r = pass.map .ok ∧ PassOutcome cfg pass) ∨
      r = .error (.panic .depthOverflow) ∧ cfg.maxDepth = 4294967295 ∧ ∃ start,
        s.tree.stateOf cfg.placeholderPassword start = .full ∧
          s.tree.OverlongBelow cfg.placeholderPassword start := by
  cases h with
  | undiscovered hc =>
    obtain ⟨candidates, hr, -⟩ | ⟨reason, hr, -⟩ := MemoryStore.discovery_cases hc
    · cases hr
    · cases hr
  | halted hc =>
    obtain ⟨candidates, hr, -⟩ | ⟨reason, hr, herror⟩ := MemoryStore.discovery_cases hc
    · cases hr
    · cases hr
      obtain ⟨hmax, start, hfull, hlong⟩ := Tree.exists_rekeyCandidates_error_iff.mp ⟨reason, herror⟩
      obtain ⟨rfl, -⟩ := Tree.rekeyCandidates_eq_error herror
      exact .inr ⟨rfl, hmax, start, hfull, hlong⟩
  | dispatched _ hd => exact .inl ⟨_, rfl, hd.outcome⟩

/-- A pass that ends has got its permits. -/
theorem Passed.limit {p : RekeyPass} (h : Passed store cfg s (.ok (.ok p), s')) :
    cfg.maxInFlight ≤ maxPermits := by
  obtain ⟨pass, hpass, houtcome⟩ | ⟨hr, -⟩ := h.outcome
  · cases houtcome with
    | ended hlimit => exact hlimit
    | refused => cases hpass
  · cases hr

/-- A run that goes on after a pass comes to what the rest of it comes to. -/
theorem RunOutcome.of_pass {p : RekeyPass} {r : Except Halt RekeyRun}
    (hp : Passed store cfg s (.ok (.ok p), s')) (hz : p.report.nodesWritten ≠ 0)
    (h : RunOutcome cfg s' r) : RunOutcome cfg s r := by
  cases h with
  | ended hlimit run => exact .ended hlimit run
  | refused hover => exact .refused hover
  | undiscovered hon hmax hfull hlong => exact .undiscovered (.pass hp hz hon) hmax hfull hlong

/-- A run that makes a pass, or has got the permits for one, comes to a result or breaks down like a pass. -/
theorem Repeated.outcome {n : Nat} {total : RekeyReport} {settled : List Settled}
    {out : Except Halt RekeyRun × MemoryStore} (h : Repeated store cfg n total settled s out)
    (hn : n ≠ 0 ∨ cfg.maxInFlight ≤ maxPermits) : RunOutcome cfg s out.1 := by
  induction h with
  | spent => exact .ended (hn.resolve_left fun hzero => hzero rfl) _
  | halted hp =>
    obtain ⟨pass, hpass, houtcome⟩ | ⟨hr, hmax, start, hfull, hlong⟩ := hp.outcome
    · cases houtcome with
      | ended => cases hpass
      | refused hover =>
        cases hpass
        exact .refused hover
    · cases hr
      exact .undiscovered .start hmax hfull hlong
  | failed hp =>
    obtain ⟨pass, hpass, -⟩ | ⟨hr, -⟩ := hp.outcome
    · cases pass <;> cases hpass
    · cases hr
  | converged hp => exact .ended hp.limit _
  | again hp hz _ ih => exact .of_pass hp hz (ih (.inr hp.limit))

end Rekey

/-! ### Jobs -/

variable {cfg : JobConfig}

/-- Over memory, whichever ids fail, no accepted configuration breaks propagation down: it has batches to make
and each of them has a first id. It breaks re-keying down only where it asks for more permits than a semaphore
can hold, and then always, or where a search runs into a walk too long for the counter of its depth. That holds
by whatever schedule the tasks move, and the jobs' own is one of them. -/
theorem accepted_jobs_break_down_over_limits (hv : cfg.validate = .ok ()) (s : MemoryStore) :
    (∃ result s', (propagation cfg).run store s = (.ok result, s')) ∧
    (∀ candidates, PassOutcome cfg (dispatch store cfg candidates s).1 ∧
      ∀ out, Dispatched store cfg candidates s out → PassOutcome cfg out.1) ∧
    Rekey.RunOutcome cfg s (Rekey.run store cfg s).1 ∧
      ∀ out, Rekey.Ran store cfg s out → Rekey.RunOutcome cfg s out.1 := by
  obtain ⟨-, hbatch, -, hpermits, -⟩ := JobConfig.validate_eq_ok_iff.mp hv
  have hpropagation : ∃ result s', (propagation cfg).run store s = (.ok result, s') := by
    obtain ⟨entries, m, s', D, hrun, -⟩ :=
      Propagation.run_propagation (MemoryStore.hosts s.failing) hbatch (s := s) rfl
    exact ⟨_, s', hrun⟩
  -- At least one pass is made, so the permits are asked for.
  have hpasses : max 1 cfg.maxPasses ≠ 0 := by omega
  have hran : ∀ out, Rekey.Ran store cfg s out → Rekey.RunOutcome cfg s out.1 := by
    intro out hout
    exact hout.outcome (.inl hpasses)
  refine ⟨hpropagation, fun candidates => ⟨?_, fun out hout => hout.outcome⟩, ?_, hran⟩
  · exact (dispatched_dispatch hpermits candidates s).outcome
  · exact hran _ (Rekey.ran_run hpermits s)

/-- Somebody full above a holder of the placeholder. -/
def twoPeople : MemoryStore :=
  let people : List PersonRecord := [
    { id := ⟨"root"⟩, attributes := { username := some "boss", password := some "real" } },
    { id := ⟨"p"⟩, attributes := { username := some "p", password := some "changeme" } }]
  { tree := (people.foldl Tree.insert default).attach ⟨"root"⟩ ⟨"p"⟩ .left }

/-- The limits that hold without configuration break nothing down, also while somebody fails. -/
theorem default_limits_break_no_job :
    ({ placeholderPassword := "changeme" } : JobConfig).validate = .ok () ∧
      (∃ result s', (propagation { placeholderPassword := "changeme" }).run store
        (twoPeople.edit (.failOn ⟨"p"⟩)) = (.ok result, s')) ∧
      ∃ run, (Rekey.run store { placeholderPassword := "changeme" }
        (twoPeople.edit (.failOn ⟨"p"⟩))).1 = .ok run := by
  have hv : ({ placeholderPassword := "changeme" } : JobConfig).validate = .ok () := by decide
  obtain ⟨hpropagation, -, hrun, -⟩ :=
    accepted_jobs_break_down_over_limits hv (twoPeople.edit (.failOn ⟨"p"⟩))
  refine ⟨hv, hpropagation, ?_⟩
  generalize (Rekey.run store { placeholderPassword := "changeme" }
    (twoPeople.edit (.failOn ⟨"p"⟩))).1 = r at hrun ⊢
  cases hrun with
  | ended hlimit run => exact ⟨run, rfl⟩
  | refused hover => exact absurd hover (by decide)
  | undiscovered hon hmax => exact absurd hmax (by decide)

/-- One permit more than a semaphore can hold is accepted. -/
def overcommitted : JobConfig :=
  { placeholderPassword := "changeme", maxInFlight := 2305843009213693952 }

theorem accepted_permits_break_rekeying :
    overcommitted.validate = .ok () ∧
      (Rekey.run store overcommitted twoPeople).1 = .error (.panic .tooManyPermits) := by
  have hrun : Rekey.RunOutcome overcommitted twoPeople (Rekey.run store overcommitted twoPeople).1 :=
    (Rekey.ran_run (by decide) twoPeople).outcome (.inl (by decide))
  refine ⟨by decide, ?_⟩
  generalize (Rekey.run store overcommitted twoPeople).1 = r at hrun ⊢
  cases hrun with
  | ended hlimit => exact absurd hlimit (by decide)
  | refused => rfl
  | undiscovered hon hmax => exact absurd hmax (by decide)

end Downline
