import Downline.Proofs.Census
import Downline.Proofs.Propagation.Runs

/-! What the report of a propagation run says about its writes. The store counts everybody whose login has
changed, and so does the census; the report counts no more than the people of batches that did not fail. -/

namespace Downline

namespace Propagation

/-- A run that names no failed batch has none among its entries. -/
theorem isFailed_of_failedBatches {entries : List BatchEntry} {start : PropagationReport}
    (h : (entries.foldl PropagationReport.count start).failedBatches = []) :
    ∀ b ∈ entries, b.isFailed = false := by
  rw [PropagationReport.foldl_count] at h
  have hfilter := List.map_eq_nil_iff.mp (List.append_eq_nil_iff.mp h).2
  simpa [List.filter_eq_nil_iff] using hfilter

end Propagation

/-- Whatever ids are failing, the logins that a run has changed, the growth of the store's count and that of
the full people in the census are the same number. The report falls short of it by what batches had written
by the time they failed, and so it is exact if no batch fails. -/
theorem report_leaves_out_failed_batches {cfg : JobConfig} (hv : cfg.validate = .ok ())
    (s : MemoryStore) :
    ∃ run s', (propagation cfg).run MemoryStore.store s = (.ok (.ok run), s') ∧
      s'.usage.nodesWritten = s.usage.nodesWritten + (s.tree.loginChanges s'.tree).length ∧
      (s'.tree.census cfg.placeholderPassword).full =
        (s.tree.census cfg.placeholderPassword).full +
          .ofNat (s.tree.loginChanges s'.tree).length ∧
      run.report.nodesWritten + Propagation.unreportedBy MemoryStore.store id cfg s =
        (s.tree.loginChanges s'.tree).length ∧
      (run.report.failedBatches = [] →
        run.report.nodesWritten = (s.tree.loginChanges s'.tree).length) := by
  obtain ⟨entries, m, s', D, hrun, hend, hent, -⟩ := Propagation.run_propagation
    (MemoryStore.hosts s.failing) (JobConfig.validate_eq_ok_iff.mp hv).2.1 (s := s) rfl
  have hchanged : (s.tree.loginChanges s'.tree).length = m := hend.filled.count
  have hwritten : (entries.map (·.written)).sum +
      Propagation.unreportedBy MemoryStore.store id cfg s = m := hent.written
  -- `m` people were filled in: the store, the census and the entries each count them in their own way.
  refine ⟨_, s', hrun, ?_, ?_, ?_, fun hnone => ?_⟩
  · rw [hchanged]
    exact hend.counted
  · rw [Tree.full_census, Tree.full_census, ← UInt64.ofNat_add]
    exact congrArg _ hend.filled.contained.length_fullList
  · rw [PropagationReport.foldl_count, hchanged, ← hwritten]
    simp
  · obtain ⟨hlost, -⟩ := hent.clean (Propagation.isFailed_of_failedBatches hnone)
    have hall := hent.written
    rw [hlost, Nat.add_zero] at hall
    rw [PropagationReport.foldl_count, hchanged, ← hall]
    simp

/-- One of the two writes of a batch is refused; the person of the other is missing from the report. -/
theorem report_leaves_out_neighbours :
    ({ placeholderPassword := "changeme" } : JobConfig).validate = .ok () ∧
      Propagation.unreportedBy MemoryStore.store id { placeholderPassword := "changeme" }
        { tree := .neighbours, failing := .ofIds [⟨"mid"⟩] } = 1 ∧
      ∃ run s', (propagation { placeholderPassword := "changeme" }).run MemoryStore.store
          { tree := .neighbours, failing := .ofIds [⟨"mid"⟩] } = (.ok (.ok run), s') ∧
        run.report.nodesWritten + 1 = s'.usage.nodesWritten := by
  have hv : ({ placeholderPassword := "changeme" } : JobConfig).validate = .ok () := by decide
  have hone : Propagation.unreportedBy MemoryStore.store id { placeholderPassword := "changeme" }
      { tree := .neighbours, failing := .ofIds [⟨"mid"⟩] } = 1 := by
    decide +kernel
  obtain ⟨run, s', hrun, hcount, -, hreport, -⟩ := report_leaves_out_failed_batches hv
    { tree := .neighbours, failing := .ofIds [⟨"mid"⟩] }
  refine ⟨hv, hone, run, s', hrun, ?_⟩
  rw [hone] at hreport
  rw [hreport, hcount]
  exact (Nat.zero_add _).symm

/-- The report of that run says that nobody was written, and somebody was. -/
theorem report_misses_neighbour : ∃ run s',
    (propagation { placeholderPassword := "changeme" }).run MemoryStore.store
        { tree := .neighbours, failing := .ofIds [⟨"mid"⟩] } = (.ok (.ok run), s') ∧
      run.report.nodesWritten = 0 ∧ run.report.failedBatches = [0] ∧
      (Tree.neighbours.loginChanges s'.tree).length = 1 ∧ s'.usage.nodesWritten = 1 := by
  let s : MemoryStore := { tree := .neighbours, failing := .ofIds [⟨"mid"⟩] }
  let cfg : JobConfig := { placeholderPassword := "changeme" }
  have hrun : ((propagation cfg).run MemoryStore.store s).1 = .ok (.ok {
      report :=
        { emptyNodes := 2, terminators := 2, batches := 1, failedBatches := [0], nodesWritten := 0 }
      batches :=
        [⟨0, 2, .failed ⟨"a"⟩ (.unavailable "simulated failure touching mid")⟩] }) := by
    decide +kernel
  exact ⟨_, _, Prod.ext hrun rfl, rfl, rfl, by decide +kernel, by decide +kernel⟩

end Downline
