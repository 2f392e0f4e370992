import Downline.Proofs.Journal.Reports
import Downline.Proofs.Propagation.Accounting
import Downline.Proofs.Propagation.Isolation
import Downline.Proofs.Rekey.Accounting
import Downline.Proofs.Rekey.Balance
import Downline.Proofs.Rekey.InFlight

/-! The counters of the jobs and the words that are to hold them. Counts are natural numbers here. Over memory they
count people, of whom nobody is counted twice, or things of which there are no more than people, or candidates. So
where words can count these, no sum runs over its word, and a report is one that can be kept and read back. Depths
are another matter: how deep a search goes is up to the depth bound, and its counter can run over. -/

namespace Downline

open MemoryStore (store)

namespace Tree

variable {t₀ t : Tree} {placeholder : String}

theorem length_filter_people_le (keep : PersonId × PersonRecord → Bool) :
    (t.people.toList.filter keep).length ≤ t.people.size :=
  (List.length_filter_le _ _).trans_eq Std.TreeMap.length_toList

theorem length_emptyIds_le (t : Tree) : t.emptyIds.length ≤ t.people.size := by
  rw [emptyIds, List.length_map]
  exact length_filter_people_le _

theorem length_inState_le (t : Tree) (placeholder : String) (state : CredentialState) :
    (t.inState placeholder state).length ≤ t.people.size := by
  rw [inState, List.length_map]
  exact length_filter_people_le _

theorem Contained.length_loginChanges_le (h : t₀.Contained t placeholder) :
    (t₀.loginChanges t).length ≤ t₀.people.size := by
  have hsame : t.people.size = t₀.people.size := by
    rw [← Std.TreeMap.length_keys, ← Std.TreeMap.length_keys, h.length_keys]
  rw [loginChanges, List.length_map, ← hsame]
  exact length_filter_people_le _

/-! ### The census -/

/-- The words of the census hold the numbers of people. -/
theorem toNat_census (hpeople : t.people.size < UInt64.size) (placeholder : String) :
    (∀ state, ((t.census placeholder).count state).toNat = (t.inState placeholder state).length) ∧
      (t.census placeholder).total.toNat = t.people.size := by
  refine ⟨fun state => ?_, ?_⟩
  · rw [count_census]
    exact UInt64.toNat_ofNat_of_lt ((t.length_inState_le placeholder state).trans_lt hpeople)
  · rw [total_census, Std.TreeMap.length_keys]
    exact UInt64.toNat_ofNat_of_lt hpeople

end Tree

/-! ### Propagation -/

namespace PropagationReport

/-- The counters of a report, each in a word of 64 bits. -/
def counters (r : PropagationReport) : List Nat :=
  [r.emptyNodes, r.terminators, r.batches, r.nodesWritten, r.unreachable] ++ r.failedBatches

theorem inRange_of_counters {r : PropagationReport} (h : ∀ n ∈ r.counters, n < UInt64.size) :
    r.InRange := by
  simp only [counters, List.cons_append, List.nil_append, List.forall_mem_cons] at h
  obtain ⟨hempty, hterminators, hbatches, hwritten, hunreachable, hfailed⟩ := h
  exact ⟨hempty, hterminators, hbatches, hfailed, hwritten, hunreachable⟩

end PropagationReport

/-- Whichever ids are failing, no counter of a propagation run exceeds the number of people, and neither does
the count of written people together with those whom failing batches have counted by the time they fail. -/
theorem propagation_counters_le {cfg : JobConfig} (hb : cfg.batchSize ≠ 0) (s : MemoryStore) :
    ∃ run s', (propagation cfg).run store s = (.ok (.ok run), s') ∧
      (∀ n ∈ run.report.counters, n ≤ s.tree.people.size) ∧
      run.report.nodesWritten + Propagation.unreportedBy store id cfg s ≤ s.tree.people.size := by
  obtain ⟨entries, m, s', D, hrun, hend, hent, -⟩ :=
    Propagation.run_propagation (MemoryStore.hosts s.failing) hb (s := s) rfl
  obtain ⟨entries', m', s'', D', hrun', -, hiso⟩ := Propagation.run_propagation_isolated hb s
  -- Both tell of the same run.
  obtain ⟨hreport, rfl⟩ := Prod.mk.inj (hrun.symm.trans hrun')
  obtain ⟨-, rfl⟩ := PropagationRun.mk.inj (Except.ok.inj (Except.ok.inj hreport))
  have hempty : s.tree.emptyIds.length ≤ s.tree.people.size := s.tree.length_emptyIds_le
  have hfull : (s.tree.fullIds cfg.placeholderPassword).size ≤ s.tree.people.size := by
    rw [Tree.size_fullIds]
    exact s.tree.length_inState_le _ _
  have hbatches : entries.length ≤ s.tree.people.size := by
    rw [hent.length]
    exact (length_batchesOf_le _ _).trans hempty
  have hwritten : (entries.map (·.written)).sum + Propagation.unreportedBy store id cfg s ≤
      s.tree.people.size := by
    calc (entries.map (·.written)).sum + Propagation.unreportedBy store id cfg s
      _ = m := hent.written
      _ = (s.tree.loginChanges s'.tree).length := hend.filled.count.symm
      _ ≤ s.tree.people.size := hend.filled.contained.length_loginChanges_le
  have hunreachable : (entries.map (·.unreachable)).sum ≤ s.tree.people.size := by
    have hreach := hent.unreachable
    rw [flatten_batchesOf] at hreach
    exact hreach.trans ((List.length_filter_le _ _).trans hempty)
  have hfailed : ∀ i ∈ Propagation.failedOf entries, i ≤ s.tree.people.size := by
    intro i hi
    have hlt := hiso.lt_of_failed hi
    rw [← hiso.length] at hlt
    exact hlt.le.trans hbatches
  refine ⟨_, s', hrun, ?_⟩
  rw [PropagationReport.foldl_count]
  simp only [PropagationReport.counters, List.cons_append, List.nil_append, List.forall_mem_cons,
    Nat.zero_add]
  exact ⟨⟨hempty, hfull, hbatches, (Nat.le_add_right _ _).trans hwritten, hunreachable, hfailed⟩,
    hwritten⟩

/-- What a propagation run reports is such as a report can hold. -/
theorem propagation_report_inRange {cfg : JobConfig} (hb : cfg.batchSize ≠ 0) {s : MemoryStore}
    (hpeople : s.tree.people.size < UInt64.size) :
    ∃ run s', (propagation cfg).run store s = (.ok (.ok run), s') ∧ run.report.InRange := by
  obtain ⟨run, s', hrun, hle, -⟩ := propagation_counters_le hb s
  exact ⟨run, s', hrun,
    PropagationReport.inRange_of_counters fun n hn => (hle n hn).trans_lt hpeople⟩

/-! ### Re-keying -/

open Rekey (Repeated Series)

theorem RekeyReport.peak_sum_le {ps : List RekeyPass}
    (h : ∀ p ∈ ps, p.report.peakInFlight ≤ p.report.candidates) :
    (sum ps).peakInFlight ≤ (sum ps).candidates := by
  induction ps with
  | nil => exact Nat.le_refl 0
  | cons p ps ih =>
    obtain ⟨hp, hps⟩ := List.forall_mem_cons.mp h
    have hrest := ih hps
    simp only [sum, List.map_cons, List.foldr_cons, List.sum_cons] at hrest ⊢
    omega

/-- Whichever ids are failing and by every schedule, a run that ends well has written no more than there are
people, has made no more passes than it may, and counts no more tasks of any kind than candidates. -/
theorem rekeying_counters_le {cfg : JobConfig} (hlimit : cfg.maxInFlight ≤ maxPermits) {n : Nat}
    {s s' : MemoryStore} {run : RekeyRun} {report : RekeyReport}
    (h : Repeated store cfg n {} [] s (.ok run, s')) (hr : run.result = .ok report) :
    report.nodesWritten ≤ s.tree.people.size ∧ report.passes ≤ n ∧
      ∀ k ∈ [report.rekeyed, report.skipped, report.failed, report.peakInFlight],
        k ≤ report.candidates := by
  have hwritten : report.nodesWritten ≤ s.tree.people.size := by
    obtain ⟨hpanic, -⟩ | ⟨run', report', written, hrun, hreport, hsum, hcounted⟩ :=
      Rekey.counted_of_repeated hlimit h
    · cases hpanic
    cases hrun
    cases hr.symm.trans hreport
    calc report.nodesWritten
      _ = written := hsum.trans (Nat.zero_add _)
      _ = (s.tree.loginChanges s'.tree).length := hcounted.nodesWritten
      _ ≤ s.tree.people.size := hcounted.contained.length_loginChanges_le
  obtain ⟨ps, hseries, hlength, -, hreport, -⟩ := h.exists_series hr
  rw [RekeyReport.empty_plus] at hreport
  have hbalanced : report.Balanced := by
    rw [hreport]
    exact RekeyReport.balanced_sum hseries.balanced
  have hpeak : report.peakInFlight ≤ report.candidates := by
    rw [hreport]
    refine RekeyReport.peak_sum_le (hseries.forall_dispatched fun candidates s₁ p s₂ hd => ?_)
    rw [(accounts_of_dispatched hd).candidates]
    exact (Pool.peak_of_dispatched hd).1.trans (Nat.min_le_right _ _)
  refine ⟨hwritten, ?_, ?_⟩
  · rw [hreport]
    exact hlength
  · rw [RekeyReport.Balanced] at hbalanced
    simp only [List.mem_cons, List.not_mem_nil, or_false, forall_eq_or_imp, forall_eq]
    omega

/-- What a re-keying run reports is such as a report can hold, as long as its candidates can be counted. -/
theorem rekeying_report_inRange {cfg : JobConfig} (hlimit : cfg.maxInFlight ≤ maxPermits) {n : Nat}
    (hn : n < UInt32.size) {s s' : MemoryStore} (hpeople : s.tree.people.size < UInt64.size)
    {run : RekeyRun} {report : RekeyReport} (h : Repeated store cfg n {} [] s (.ok run, s'))
    (hr : run.result = .ok report) (hcandidates : report.candidates < UInt64.size) :
    report.InRange := by
  obtain ⟨hwritten, hpasses, hcounts⟩ := rekeying_counters_le hlimit h hr
  simp only [List.forall_mem_cons] at hcounts
  obtain ⟨hrekeyed, hskipped, hfailed, hpeak, -⟩ := hcounts
  exact ⟨hpasses.trans_lt hn, hcandidates, hrekeyed.trans_lt hcandidates,
    hskipped.trans_lt hcandidates, hfailed.trans_lt hcandidates, hwritten.trans_lt hpeople,
    hpeak.trans_lt hcandidates⟩

end Downline
