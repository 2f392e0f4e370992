import Downline.Proofs.Journal
import Downline.Proofs.Maintenance.Runs
import Downline.Proofs.Propagation.Exact
import Downline.Proofs.Rekey.Convergence

/-! What a cycle makes of a forest, however its re-keying tasks take turns: whoever is not full takes over
the nearest login above it, and a second cycle finds nothing left to do. -/

namespace Downline

namespace Tree

/-- Each person who is not full in `t₀` and has a full proper ancestor holds in `t` the login of the
nearest one, as it was in `t₀`; everyone else is as before. -/
structure HandedDown (t₀ t : Tree) (placeholder : String) : Prop where
  relations : t.relations = t₀.relations
  heirs : ∀ x r k b, t₀.person? x = some r → t₀.stateOf placeholder x ≠ .full → 0 < k →
    t₀.ancestor? k x = some b → t₀.stateOf placeholder b = .full →
      ∃ c, t₀.Inherits placeholder x c ∧ t.person? x = some (r.holding c)
  others : ∀ x, (t₀.person? x = none ∨ t₀.stateOf placeholder x = .full ∨
    ∀ k b, 0 < k → t₀.ancestor? k x = some b → t₀.stateOf placeholder b ≠ .full) →
      t.person? x = t₀.person? x

variable {t₀ t : Tree} {placeholder : String} {H : Nat}

/-- A tree is handed down when nobody is left who waits. -/
theorem Contained.handedDown (hc : t₀.Contained t placeholder)
    (h : t.PendingWithin placeholder 0) : t₀.HandedDown t placeholder where
  relations := hc.relations
  heirs := by
    intro x r k b hr hn hk hb hf
    obtain ⟨m, a, -, ha⟩ := FirstAbove.exists_of_ancestor (P := (t₀.stateOf placeholder · = .full))
      hk hb hf
    obtain ⟨c, -, hi⟩ := ha.exists_inherits
    obtain ⟨m', a', ha', -⟩ := hc.inherits_after hi
    obtain ⟨r', c', hr', -, hi', hx⟩ := hc.taken_over hn (h.full ha')
    cases hr.symm.trans hr'
    exact ⟨c', hi', hx⟩
  others := by
    intro x hx
    rcases hc.people x with he | ⟨r, c, hr, hn, ⟨k, a, ha, -⟩, -⟩
    · exact he
    · rcases hx with hnone | hf | hnobody
      · rw [hr] at hnone
        cases hnone
      · exact absurd hf hn
      · exact absurd ha.holds (hnobody k a ha.pos ha.reached)

end Tree

/-- Propagation through a forest leaves nobody empty below a full person. -/
theorem Propagated.primed {cfg : JobConfig} {t₀ t : Tree} {report : PropagationReport} {H : Nat}
    (h : Propagated cfg t₀ t report) (hc : t₀.Contained t cfg.placeholderPassword)
    (hw : t₀.WellFormed) (hH : t₀.HeightAtMost H) (hd : H ≤ cfg.maxDepth.toNat) :
    t.Primed cfg.placeholderPassword := by
  intro x k a ha he
  have hsame : t.person? x = t₀.person? x := hc.person?_of_not_full (by rw [he]; exact nofun)
  have he₀ : t₀.stateOf cfg.placeholderPassword x = .empty := (Tree.stateOf_congr hsame).symm.trans he
  obtain ⟨c, -, hi⟩ := ha.exists_inherits
  obtain ⟨m, b, hb, -⟩ := hc.inherits_before hi
  have hp := hw.isSome_of_ancestor hb.pos hb.reached
  -- An empty person begins a way up itself.
  have hway : t₀.OnTheWay cfg.placeholderPassword cfg.maxDepth.toNat x b :=
    ⟨x, hp, he₀, 0, m, hb.pos, Nat.le_trans (hH.le hb.reached) hd, hb, rfl⟩
  exact (h.changed_iff x).mpr ⟨hp, by rw [he₀]; exact nofun, b, hway⟩ hsame

namespace Maintenance

open MemoryStore (store)

/-- A cycle has succeeded, with these reports of the two jobs. -/
def Reported {σ : Type} (out : Except Halt CycleRun × Site σ) (propagation : PropagationReport)
    (rekey : RekeyReport) : Prop :=
  ∃ run report, out.1 = .ok run ∧ run.result = .ok report ∧
    report.propagation.outcome = .propagation propagation ∧ report.rekey.outcome = .rekey rekey

variable {cfg : JobConfig} {journal : Option Journal} {stamps : CycleStamps}
  {site : Site MemoryStore} {out : Except Halt CycleRun × Site MemoryStore} {H : Nat}

/-- What ends well and can be put on record is reported. -/
theorem reported_conclude {files : FileTree} {propagation : RunReport} {p : PropagationReport}
    (hj : Recordable journal files) (hp : propagation.outcome = .propagation p) (stamp : Stamp)
    (batches : List BatchEntry) {k : Except Halt RekeyRun × MemoryStore} {run : RekeyRun}
    {report : RekeyReport} (hrun : k.1 = .ok run) (hreport : run.result = .ok report) :
    Reported (conclude journal stamp propagation batches files k) p report ∧
      Recordable journal (conclude journal stamp propagation batches files k).2.files := by
  obtain ⟨_, s⟩ := k
  cases hrun
  obtain ⟨rekey, files', hrecord, hj'⟩ := hj.exists_record stamp (.rekey report)
  simp only [conclude, hreport, hrecord]
  exact ⟨⟨_, _, rfl, rfl, hp, outcome_of_record hrecord⟩, hj'⟩

/-- When no call and no record fails, a cycle is a propagation and a re-keying run behind it. -/
theorem rekeyed_of_cycled (hb : cfg.batchSize ≠ 0) (hj : Recordable journal site.files)
    (hfail : ∀ x, x ∉ site.store.failing) (h : Cycled store cfg journal stamps site out) :
    ∃ (run : PropagationRun) (s : MemoryStore) (report : RunReport) (files : FileTree)
        (k : Except Halt RekeyRun × MemoryStore), Propagated cfg site.store.tree s.tree run.report ∧
      site.store.tree.Contained s.tree cfg.placeholderPassword ∧ s.failing = site.store.failing ∧
      report.outcome = .propagation run.report ∧ Recordable journal files ∧
      Rekey.Ran store cfg s k ∧ out = conclude journal stamps.rekey report run.batches files k := by
  obtain ⟨run, s, hrun, hfailing, hprop, hc⟩ := exists_run_propagation hb hfail
  obtain ⟨report, files, hrecord, hj'⟩ :=
    hj.exists_record stamps.propagation (.propagation run.report)
  cases h with
  | halted hp | failed hp =>
    rw [hrun] at hp
    cases hp
  | unrecorded hp hr =>
    rw [hrun] at hp
    cases hp
    rw [hrecord] at hr
    cases hr
  | rekeyed hp hr hk =>
    rw [hrun] at hp
    cases hp
    rw [hrecord] at hr
    cases hr
    exact ⟨run, s, report, files, _, hprop, hc, hfailing, outcome_of_record hrecord, hj', hk, rfl⟩

section Forest

variable (hv : cfg.validate = .ok ()) (hlimit : cfg.maxInFlight ≤ maxPermits)
  (hj : Recordable journal site.files) (hfail : ∀ x, x ∉ site.store.failing)
  (hw : site.store.tree.WellFormed) (hH : site.store.tree.HeightAtMost H)
  (hd : H ≤ cfg.maxDepth.toNat) (h : Cycled store cfg journal stamps site out)
include hv hlimit hj hfail hw hH hd h

/-- A cycle with enough passes succeeds, and then nobody waits. -/
theorem settled_of_cycled (hpasses : H ≤ cfg.maxPasses) :
    ∃ p r, Reported out p r ∧ Recordable journal out.2.files ∧
      out.2.store.failing = site.store.failing ∧
      site.store.tree.Contained out.2.store.tree cfg.placeholderPassword ∧
      out.2.store.tree.PendingWithin cfg.placeholderPassword 0 := by
  obtain ⟨run, s, report, files, k, hprop, hc, hfailing, hreport, hj', hk, rfl⟩ :=
    rekeyed_of_cycled (JobConfig.validate_eq_ok_iff.mp hv).2.1 hj hfail h
  have hwait : s.tree.PendingWithin cfg.placeholderPassword (max 1 cfg.maxPasses) :=
    ((hc.heightAtMost hH).pendingWithin _).mono (Nat.le_trans hpasses (Nat.le_max_right _ _))
  obtain ⟨rekeyed, r, hrun, hr, hfailing', hc', hsettled⟩ :=
    Rekey.settled_of_repeated hlimit (by rwa [hfailing]) (hprop.primed hc hw hH hd)
      (hc.wellFormed hw) (hc.heightAtMost hH) hd hwait hk
  obtain ⟨hreported, hj''⟩ := reported_conclude hj' hreport stamps.rekey run.batches hrun hr
  refine ⟨run.report, r, hreported, hj'', ?_⟩
  rw [store_conclude]
  exact ⟨hfailing'.trans hfailing, hc.trans hc', hsettled⟩

/-- A cycle that finds nobody waiting succeeds and reports that it wrote nothing. -/
theorem idle_of_cycled (hsettled : site.store.tree.PendingWithin cfg.placeholderPassword 0) :
    ∃ p r, Reported out p r ∧ p.nodesWritten = 0 ∧ r.nodesWritten = 0 ∧ r.candidates = 0 := by
  obtain ⟨run, s, report, files, k, hprop, hc, hfailing, hreport, hj', hk, rfl⟩ :=
    rekeyed_of_cycled (JobConfig.validate_eq_ok_iff.mp hv).2.1 hj hfail h
  obtain ⟨rekeyed, r, hrun, hr, hwritten, hcandidates⟩ :=
    Rekey.idle_of_repeated hlimit (by rwa [hfailing]) (hc.wellFormed hw) (hc.heightAtMost hH) hd
      (hsettled.of_contained hc) hk
  obtain ⟨hreported, -⟩ := reported_conclude hj' hreport stamps.rekey run.batches hrun hr
  refine ⟨run.report, r, hreported, ?_, hwritten, hcandidates⟩
  rw [hprop.report_eq]
  exact hc.loginChanges_of_settled hsettled

end Forest

end Maintenance

open MemoryStore (store)
open Maintenance (Cycled Reported cycle)

/-- A cycle over a forest that is no higher than the depth bound and the number of passes, when no call
and no record fails: by every schedule of the re-keying tasks it succeeds and hands each login down to
all who are not full below it, and a second cycle writes nothing and finds no candidate. The jobs' own
cycles are among these. -/
theorem cycle_hands_logins_down {cfg : JobConfig} (hv : cfg.validate = .ok ())
    (hlimit : cfg.maxInFlight ≤ maxPermits) {journal : Option Journal} {files : FileTree}
    (hj : Recordable journal files) {s : MemoryStore} (hfail : ∀ x, x ∉ s.failing)
    (hw : s.tree.WellFormed) {H : Nat} (hH : s.tree.HeightAtMost H)
    (hd : H ≤ cfg.maxDepth.toNat) (hpasses : H + 1 ≤ cfg.maxPasses) :
    (∀ stamps site, Cycled store cfg journal stamps site (cycle store cfg journal stamps site)) ∧
      ∀ stamps out, Cycled store cfg journal stamps ⟨s, files⟩ out →
        (∃ p r, Reported out p r) ∧
          s.tree.HandedDown out.2.store.tree cfg.placeholderPassword ∧
          ∀ stamps₂ out₂, Cycled store cfg journal stamps₂ out.2 out₂ →
            ∃ p r, Reported out₂ p r ∧ p.nodesWritten = 0 ∧ r.nodesWritten = 0 ∧
              r.candidates = 0 := by
  have hinflight : cfg.maxInFlight ≠ 0 := (JobConfig.validate_eq_ok_iff.mp hv).2.2.2.1
  refine ⟨fun stamps site => Maintenance.cycled_cycle hinflight site, fun stamps out h => ?_⟩
  obtain ⟨p, r, hreported, hj', hfailing, hc, hsettled⟩ :=
    Maintenance.settled_of_cycled hv hlimit hj hfail hw hH hd h (Nat.le_of_succ_le hpasses)
  refine ⟨⟨p, r, hreported⟩, hc.handedDown hsettled, fun stamps₂ out₂ h₂ => ?_⟩
  exact Maintenance.idle_of_cycled hv hlimit hj' (by rw [hfailing]; exact hfail) (hc.wellFormed hw)
    (hc.heightAtMost hH) hd h₂ hsettled

/-- The last of the household takes its login over from two edges above. -/
theorem cycle_settles_household :
    ({ placeholderPassword := "changeme", maxDepth := 3, maxPasses := 3 } : JobConfig).validate =
        .ok () ∧
      Recordable (some ⟨["journal"]⟩) {} ∧ Tree.household.WellFormed ∧
      Tree.household.HeightAtMost 2 ∧
      (cycle store { placeholderPassword := "changeme", maxDepth := 3, maxPasses := 3 }
        (some ⟨["journal"]⟩) default ⟨{ tree := .household }, {}⟩).2.store.tree.credentialsOf ⟨"c"⟩ =
          some ⟨"boss", "real"⟩ := by
  have hv : ({ placeholderPassword := "changeme", maxDepth := 3, maxPasses := 3 } :
      JobConfig).validate = .ok () := by
    decide
  have hj : Recordable (some ⟨["journal"]⟩) {} := recordable_of_layered _ ⟨nofun, nofun⟩
  obtain ⟨hown, hall⟩ := cycle_hands_logins_down hv (by decide) hj (s := { tree := .household })
    (fun x => Std.TreeSet.not_mem_emptyc) Tree.wellFormed_household Tree.heightAtMost_household
    (by decide) (by decide)
  obtain ⟨-, hdown, -⟩ := hall default _ (hown default _)
  obtain ⟨r, hr⟩ : ∃ r, Tree.household.person? ⟨"c"⟩ = some r :=
    Option.isSome_iff_exists.mp (by decide +kernel)
  have hi : Tree.household.Inherits "changeme" ⟨"c"⟩ ⟨"boss", "real"⟩ :=
    .further (p := ⟨"b"⟩) (by decide +kernel) (by decide +kernel)
      (.of_parent (p := ⟨"root"⟩) (by decide +kernel) (by decide +kernel) (by decide +kernel))
  obtain ⟨c, hc, hlogin⟩ := hdown.heirs ⟨"c"⟩ r 2 ⟨"root"⟩ hr (by decide +kernel) (by decide)
    (by decide +kernel) (by decide +kernel)
  cases hc.unique hi
  refine ⟨hv, hj, Tree.wellFormed_household, Tree.heightAtMost_household, ?_⟩
  rw [Tree.credentialsOf_of_person hlogin, PersonRecord.credentials_holding]

end Downline
