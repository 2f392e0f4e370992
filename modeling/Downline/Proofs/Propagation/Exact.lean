import Downline.Proofs.Propagation.Runs

/-! What a propagation run over memory does when no call fails: the people on the way from an empty person
up to its nearest full ancestor take over that ancestor's login, each is counted once, and neither the
result nor the report depends on how the empty people are cut into batches. -/

namespace Downline

/-- What a propagation run makes of a tree, and what it reports. -/
structure Propagated (cfg : JobConfig) (t t' : Tree) (report : PropagationReport) : Prop where
  relations : t'.relations = t.relations
  /-- Those who change are the people who are not full and whom an empty person passes. -/
  changed_iff : ∀ x, t'.person? x ≠ t.person? x ↔
    (t.person? x).isSome ∧ t.stateOf cfg.placeholderPassword x ≠ .full ∧
      ∃ a, t.OnTheWay cfg.placeholderPassword cfg.maxDepth.toNat x a
  /-- They hold the login of the full person at the end of the way. -/
  holds : ∀ x a r c, t.OnTheWay cfg.placeholderPassword cfg.maxDepth.toNat x a →
    t.person? x = some r → t.credentialsOf a = some c → t'.person? x = some (r.holding c)
  report_eq : report = {
    emptyNodes := t.emptyIds.length
    terminators := (t.fullIds cfg.placeholderPassword).size
    batches := (t.emptyIds.length + cfg.batchSize - 1) / cfg.batchSize
    failedBatches := []
    nodesWritten := (t.loginChanges t').length
    unreachable := (t.emptyIds.filter fun e =>
      !t.meetsFull cfg.placeholderPassword cfg.maxDepth.toNat e).length }

namespace Propagated

variable {cfg : JobConfig} {t₀ t : Tree}

/-- A tree in which the ways up from the empty people have been filled in is one after propagation. -/
theorem of_filled {n batches : Nat}
    (h : t₀.Filled cfg.placeholderPassword (fun x => ∃ e ∈ t₀.emptyIds, ∃ a,
      t₀.PassedBy cfg.placeholderPassword cfg.maxDepth.toNat e x a) n t)
    (hb : batches = (t₀.emptyIds.length + cfg.batchSize - 1) / cfg.batchSize) :
    Propagated cfg t₀ t {
      emptyNodes := t₀.emptyIds.length
      terminators := (t₀.fullIds cfg.placeholderPassword).size
      batches
      nodesWritten := n
      unreachable := (t₀.emptyIds.filter fun e =>
        !t₀.meetsFull cfg.placeholderPassword cfg.maxDepth.toNat e).length } := by
  have hway (x a : PersonId) : t₀.OnTheWay cfg.placeholderPassword cfg.maxDepth.toNat x a ↔
      ∃ e ∈ t₀.emptyIds, t₀.PassedBy cfg.placeholderPassword cfg.maxDepth.toNat e x a := by
    simp only [Tree.OnTheWay, Tree.mem_emptyIds cfg.placeholderPassword, and_assoc]
  have hfull {x a : PersonId} (hp : (t₀.person? x).isSome)
      (hx : t₀.OnTheWay cfg.placeholderPassword cfg.maxDepth.toNat x a) :
      t.stateOf cfg.placeholderPassword x = .full := by
    obtain ⟨e, he, hpass⟩ := (hway x a).mp hx
    exact (h.full_iff x).mpr (.inr ⟨hp, e, he, a, hpass⟩)
  refine ⟨h.contained.relations, fun x => ?_, fun x a r c hx hr hc => ?_, ?_⟩
  · constructor
    · intro hne
      rcases h.contained.people x with he | ht
      · exact absurd he hne
      · obtain ⟨r, -, hr, -⟩ := id ht
        have hp : (t₀.person? x).isSome := by rw [hr, Option.isSome_some]
        obtain ⟨-, e, he, a, hpass⟩ := ((h.full_iff x).mp ht.full).resolve_left ht.not_full
        exact ⟨hp, ht.not_full, a, (hway x a).mpr ⟨e, he, hpass⟩⟩
    · rintro ⟨hp, hn, a, hx⟩ he
      have hf := hfull hp hx
      rw [Tree.stateOf_congr he] at hf
      exact hn hf
  · have hp : (t₀.person? x).isSome := by rw [hr, Option.isSome_some]
    obtain ⟨e, -, -, hpass⟩ := id hx
    exact h.contained.person?_of_passed hpass hx.not_full (hfull hp hx) hr hc
  · rw [h.count, hb]

/-- The logins after a run are determined by those before it, whatever the size of the batches. -/
theorem person?_unique {t' : Tree} {report report' : PropagationReport} {b : Nat}
    (h : Propagated cfg t₀ t report)
    (h' : Propagated { cfg with batchSize := b } t₀ t' report') (x : PersonId) :
    t'.person? x = t.person? x := by
  by_cases hx : (t₀.person? x).isSome ∧ t₀.stateOf cfg.placeholderPassword x ≠ .full ∧
      ∃ a, t₀.OnTheWay cfg.placeholderPassword cfg.maxDepth.toNat x a
  · obtain ⟨hp, -, a, hway⟩ := hx
    obtain ⟨r, hr⟩ := Option.isSome_iff_exists.mp hp
    obtain ⟨e, -, -, hpass⟩ := id hway
    obtain ⟨k, hn⟩ := hpass.nearest
    obtain ⟨c, hc, -⟩ := hn.exists_inherits
    rw [h.holds x a r c hway hr hc, h'.holds x a r c hway hr hc]
  · have hsame := mt (h.changed_iff x).mp hx
    have hsame' := mt (h'.changed_iff x).mp hx
    rw [not_not.mp hsame, not_not.mp hsame']

end Propagated

/-- With no failing ids a propagation run succeeds, and leaves a propagated tree. -/
theorem exists_run_propagation {cfg : JobConfig} (hb : cfg.batchSize ≠ 0) {s : MemoryStore}
    (hfail : ∀ x, x ∉ s.failing) :
    ∃ run s', (propagation cfg).run MemoryStore.store s = (.ok (.ok run), s') ∧
      s'.failing = s.failing ∧ Propagated cfg s.tree s'.tree run.report ∧
      s.tree.Contained s'.tree cfg.placeholderPassword := by
  obtain ⟨entries, m, s', D, hrun, hend, hent, hall⟩ :=
    Propagation.run_propagation (MemoryStore.hosts s.failing) hb (s := s) rfl
  have hclean : ∀ b ∈ entries, b.isFailed = false :=
    hall.resolve_right (MemoryStore.not_mayRefuse hfail)
  obtain ⟨hlost, hunreachable, hD⟩ := hent.clean hclean
  have hwritten := hent.written
  rw [hlost, Nat.add_zero] at hwritten
  rw [flatten_batchesOf] at hunreachable hD
  have hfailed : entries.filter (·.isFailed) = [] := by
    simpa [List.filter_eq_nil_iff] using hclean
  refine ⟨_, s', hrun, hend.inv, ?_, hend.filled.contained⟩
  rw [PropagationReport.foldl_count, hfailed, hwritten, hunreachable, hent.length,
    Propagation.outOfReach]
  simpa using Propagated.of_filled (hend.filled.congr hD)
    (length_batchesOf (Nat.pos_of_ne_zero hb) s.tree.emptyIds)

/-- Propagation with no failing ids: exactly the people whom some empty person passes on the way up to
its nearest full ancestor change, and they take over that ancestor's login; the report counts each of
them once. Runs with batches of another size differ in the number of batches alone. -/
theorem propagation_fills_every_way_up {cfg : JobConfig} (hv : cfg.validate = .ok ())
    {s : MemoryStore} (hfail : ∀ x, x ∉ s.failing) :
    ∃ run s', (propagation cfg).run MemoryStore.store s = (.ok (.ok run), s') ∧
      Propagated cfg s.tree s'.tree run.report ∧
      ∀ b, b ≠ 0 → ∃ run₂ s₂,
        (propagation { cfg with batchSize := b }).run MemoryStore.store s = (.ok (.ok run₂), s₂) ∧
          (∀ x, s₂.tree.person? x = s'.tree.person? x) ∧
          s₂.tree.relations = s'.tree.relations ∧
          run₂.report = { run.report with batches := run₂.report.batches } := by
  obtain ⟨run, s', hrun, -, h, -⟩ :=
    exists_run_propagation (JobConfig.validate_eq_ok_iff.mp hv).2.1 hfail
  refine ⟨run, s', hrun, h, fun b hb => ?_⟩
  obtain ⟨run₂, s₂, hrun₂, -, h₂, -⟩ :=
    exists_run_propagation (show { cfg with batchSize := b }.batchSize ≠ 0 from hb) hfail
  have hsame : ∀ x, s₂.tree.person? x = s'.tree.person? x := h.person?_unique h₂
  refine ⟨run₂, s₂, hrun₂, hsame, h₂.relations.trans h.relations.symm, ?_⟩
  rw [h₂.report_eq, h.report_eq, Tree.length_loginChanges_congr hsame]

theorem propagation_fills_household :
    ({ placeholderPassword := "changeme", maxDepth := 3 } : JobConfig).validate = .ok () ∧
      ∃ run s', (propagation { placeholderPassword := "changeme", maxDepth := 3 }).run
          MemoryStore.store { tree := .household } = (.ok (.ok run), s') ∧
        s'.tree.credentialsOf ⟨"a"⟩ = some ⟨"boss", "real"⟩ ∧ run.report.unreachable = 0 := by
  have hv : ({ placeholderPassword := "changeme", maxDepth := 3 } : JobConfig).validate = .ok () := by
    decide
  obtain ⟨run, s', hrun, h, -⟩ := propagation_fills_every_way_up hv
    (s := { tree := .household }) fun x => Std.TreeSet.not_mem_emptyc
  have hway : Tree.household.OnTheWay "changeme" 3 ⟨"a"⟩ ⟨"root"⟩ :=
    ⟨⟨"a"⟩, by decide +kernel, by decide +kernel, 0, 1, by decide, by decide,
      .of_parent (by decide +kernel) (by decide +kernel), rfl⟩
  obtain ⟨r, hr⟩ : ∃ r, Tree.household.person? ⟨"a"⟩ = some r :=
    Option.isSome_iff_exists.mp (by decide +kernel)
  have hlogin := h.holds ⟨"a"⟩ ⟨"root"⟩ r ⟨"boss", "real"⟩ hway hr (by decide +kernel)
  have hreach : (Tree.household.emptyIds.filter fun e =>
      !Tree.household.meetsFull "changeme" 3 e).length = 0 := by
    decide +kernel
  refine ⟨hv, run, s', hrun, ?_, ?_⟩
  · rw [Tree.credentialsOf_of_person hlogin, PersonRecord.credentials_holding]
  · rw [h.report_eq]
    exact hreach

end Downline
