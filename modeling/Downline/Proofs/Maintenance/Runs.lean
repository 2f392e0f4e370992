import Downline.Maintenance
import Downline.Proofs.Rekey.Runs

/-! Maintenance cycles under every schedule of their re-keying passes. The jobs' own cycle is one of them. -/

namespace Downline.Maintenance

variable {σ : Type} {S : Store σ} {cfg : JobConfig} {journal : Option Journal} {stamps : CycleStamps}

/-- A cycle in which every re-keying pass follows some schedule. -/
inductive Cycled (S : Store σ) (cfg : JobConfig) (journal : Option Journal) (stamps : CycleStamps) :
    Site σ → Except Halt CycleRun × Site σ → Prop where
  | halted {site : Site σ} {h : Halt} {s' : σ}
      (hp : (propagation cfg).run S site.store = (.error h, s')) :
      Cycled S cfg journal stamps site (.error h, { site with store := s' })
  | failed {site : Site σ} {e : StoreError} {s' : σ}
      (hp : (propagation cfg).run S site.store = (.ok (.error e), s')) :
      Cycled S cfg journal stamps site
        (.ok { result := .error (.graph e) }, { site with store := s' })
  | unrecorded {site : Site σ} {run : PropagationRun} {s' : σ} {e : SyncError}
      (hp : (propagation cfg).run S site.store = (.ok (.ok run), s'))
      (hr : record journal stamps.propagation (.propagation run.report) site.files = .error e) :
      Cycled S cfg journal stamps site
        (.ok { result := .error e, batches := run.batches }, { site with store := s' })
  | rekeyed {site : Site σ} {run : PropagationRun} {s' : σ} {report : RunReport} {files : FileTree}
      {out : Except Halt RekeyRun × σ}
      (hp : (propagation cfg).run S site.store = (.ok (.ok run), s'))
      (hr : record journal stamps.propagation (.propagation run.report) site.files =
        .ok (report, files))
      (hk : Rekey.Ran S cfg s' out) :
      Cycled S cfg journal stamps site
        (conclude journal stamps.rekey report run.batches files out)

/-- A moment of a cycle: when propagation has ended, or a moment of the re-keying run behind it. -/
inductive Moment (S : Store σ) (cfg : JobConfig) (journal : Option Journal) (stamps : CycleStamps) :
    Site σ → σ → Prop where
  | propagated {site : Site σ} :
      Moment S cfg journal stamps site ((propagation cfg).run S site.store).2
  | rekeying {site : Site σ} {run : PropagationRun} {s s' : σ} {report : RunReport}
      {files : FileTree} (hp : (propagation cfg).run S site.store = (.ok (.ok run), s))
      (hr : record journal stamps.propagation (.propagation run.report) site.files =
        .ok (report, files))
      (hm : Rekey.Moment S cfg (max 1 cfg.maxPasses) s s') : Moment S cfg journal stamps site s'

theorem cycled_cycle (hn : cfg.maxInFlight ≠ 0) (site : Site σ) :
    Cycled S cfg journal stamps site (cycle S cfg journal stamps site) := by
  rw [cycle]
  split
  next hp => exact .halted hp
  next hp => exact .failed hp
  next run s' hp =>
    split
    next hr => exact .unrecorded hp hr
    next hr => exact .rekeyed hp hr (Rekey.ran_run hn s')

/-- The record of a run leaves the store alone. -/
theorem store_conclude (stamp : Stamp) (propagation : RunReport) (batches : List BatchEntry)
    (files : FileTree) (out : Except Halt RekeyRun × σ) :
    (conclude journal stamp propagation batches files out).2.store = out.2 := by
  obtain ⟨h | run, s⟩ := out
  · rfl
  · simp only [conclude]
    split
    · rfl
    · split <;> rfl

/-- The end of a cycle is one of its moments. -/
theorem Cycled.moment {site : Site σ} {out : Except Halt CycleRun × Site σ}
    (h : Cycled S cfg journal stamps site out) :
    Moment S cfg journal stamps site out.2.store := by
  have hpropagated : Moment S cfg journal stamps site _ := .propagated
  cases h with
  | halted hp | failed hp | unrecorded hp hr => rwa [hp] at hpropagated
  | rekeyed hp hr hk =>
    rw [store_conclude]
    exact .rekeying hp hr (Rekey.Repeated.moment hk)

end Downline.Maintenance
