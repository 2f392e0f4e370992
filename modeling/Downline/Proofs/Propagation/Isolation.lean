import Downline.Proofs.GuardedWrites
import Downline.Proofs.Propagation.Exact

/-! Propagation over a memory in which some ids fail all the time. Which batches fail is decided by the tree at
the start: those with a failing id among their members or on the way of one of them up to a full person. What the
others write is what they write when nothing fails. -/

namespace Downline

namespace Propagation

variable {t₀ : Tree} {cfg : JobConfig} {failing : IdSet} {batch : List PersonId} {s : MemoryStore}

/-- A failing id is a member of the batch, or a member passes it on the way up to its nearest full ancestor. For
empty members nobody on such a way is full. -/
def Stricken (t : Tree) (cfg : JobConfig) (failing : IdSet) (batch : List PersonId) : Prop :=
  ∃ x ∈ failing, ∃ e ∈ batch,
    x = e ∨ ∃ a, t.PassedBy cfg.placeholderPassword cfg.maxDepth.toNat e x a

/-! ### One batch -/

/-- Writes are made one after another until one of them lists a failing id. -/
theorem run_writeAll_memory (guard : WriteGuard) (groups : List Inheritance) (n : Nat) (s : MemoryStore) :
    ∃ r s', (writeAll guard groups n).run MemoryStore.store s = (.ok r, s') ∧
      ((∃ e, r = .error e) ↔ ∃ g ∈ groups, ∃ x ∈ g.targets, x ∈ s.failing) := by
  induction groups generalizing n s with
  | nil => exact ⟨.ok n, s, rfl, by simp⟩
  | cons g rest ih =>
    rw [writeAll]
    by_cases hx : ∃ x ∈ g.targets.toList, x ∈ s.failing
    · obtain ⟨e, hcall, -⟩ := MemoryStore.call_setCredentials_refused g.credentials guard hx
      obtain ⟨x, hg, hf⟩ := hx
      refine ⟨.error e, _, by rw [Prog.run_request_error (congrArg Prod.fst hcall)]; rfl, ?_⟩
      exact iff_of_true ⟨e, rfl⟩ ⟨g, List.mem_cons_self, x, Std.TreeSet.mem_toList.mp hg, hf⟩
    · have hnone : ∀ x ∈ g.targets.toList, x ∉ s.failing := fun x hg hf => hx ⟨x, hg, hf⟩
      have hcall := MemoryStore.call_setCredentials g.credentials guard hnone
      obtain ⟨r, s', hrun, hr⟩ := ih (n + (s.tree.write g.targets.toList g.credentials guard).1)
        (s.afterWrite (s.tree.write g.targets.toList g.credentials guard).1
          (s.tree.write g.targets.toList g.credentials guard).2)
      refine ⟨r, s', ?_, ?_⟩
      · rw [Prog.run_request_ok (congrArg Prod.fst hcall), hcall]
        exact hrun
      · have hspared : ¬ ∃ x ∈ g.targets, x ∈ s.failing := by
          intro h
          obtain ⟨x, hg, hf⟩ := h
          exact hnone x (Std.TreeSet.mem_toList.mpr hg) hf
        rw [hr, List.exists_mem_cons_iff]
        exact (or_iff_right hspared).symm

/-- A batch over a memory that has come from `t₀` fails exactly if it was stricken there. -/
theorem run_settle_memory (h : t₀.Contained s.tree cfg.placeholderPassword)
    (hmem : ∀ e ∈ batch, (t₀.person? e).isSome ∧ t₀.stateOf cfg.placeholderPassword e = .empty) :
    ∃ r s', (settle cfg (t₀.fullIds cfg.placeholderPassword) batch).run MemoryStore.store s =
        (.ok r, s') ∧
      ((∃ e, r = .error e) ↔ Stricken t₀ cfg s.failing batch) := by
  rw [settle]
  by_cases hx : ∃ e ∈ batch, e ∈ s.failing
  · obtain ⟨e, hcall, -⟩ := MemoryStore.call_upwardPaths_refused
      (t₀.fullIds cfg.placeholderPassword) cfg.maxDepth hx
    obtain ⟨x, hb, hf⟩ := hx
    refine ⟨.error e, _, by rw [Prog.run_request_error hcall]; rfl, ?_⟩
    exact iff_of_true ⟨e, rfl⟩ ⟨x, hf, x, hb, .inl rfl⟩
  · have hnone : ∀ e ∈ batch, e ∉ s.failing := fun e hb hf => hx ⟨e, hb, hf⟩
    have hcall := MemoryStore.call_upwardPaths hnone (t₀.fullIds cfg.placeholderPassword) cfg.maxDepth
    -- The ways up are those of the beginning still, and so are the groups.
    have hpaths : batch.filterMap
        (s.tree.upwardPath? (t₀.fullIds cfg.placeholderPassword) cfg.maxDepth) = pathsOf t₀ cfg batch :=
      List.filterMap_congr fun e _ => h.upwardPath?_eq cfg.maxDepth e
    rw [hpaths] at hcall
    obtain ⟨r, s', hrun, hr⟩ := run_writeAll_memory (.notFull cfg.placeholderPassword)
      (groupsOf t₀ cfg batch) 0
      (MemoryStore.store.call (.upwardPaths batch (t₀.fullIds cfg.placeholderPassword) cfg.maxDepth) s).2
    rw [MemoryStore.failing_call] at hr
    refine ⟨r.map fun m => .settled m (unreached batch (pathsOf t₀ cfg batch)).length, s', ?_, ?_⟩
    · rw [Prog.run_request_ok hcall]
      dsimp only
      rw [groupsOf] at hrun
      rw [Prog.run_bind_ok hrun]
      cases r <;> rfl
    · have hmap : (∃ e, (r.map fun m => BatchOutcome.settled m
          (unreached batch (pathsOf t₀ cfg batch)).length) = .error e) ↔ ∃ e, r = .error e := by
        cases r <;> simp [Except.map]
      rw [hmap, hr]
      constructor
      · intro hg
        obtain ⟨g, hg, x, hxg, hf⟩ := hg
        obtain ⟨e, hb, hpass⟩ := (exists_group_iff hmem).mp ⟨g, hg, hxg⟩
        exact ⟨x, hf, e, hb, .inr hpass⟩
      · intro hs
        obtain ⟨x, hf, e, hb, rfl | hpass⟩ := hs
        · exact absurd hf (hnone x hb)
        · obtain ⟨g, hg, hxg⟩ := (exists_group_iff hmem).mpr ⟨e, hb, hpass⟩
          exact ⟨g, hg, x, hxg, hf⟩

/-! ### All batches -/

/-- The indices of the batches that failed. -/
def failedOf (entries : List BatchEntry) : List Nat :=
  (entries.filter (·.isFailed)).map (·.index)

/-- What became of batches that were handled from an index on: the stricken ones failed and no others, and whoever
is on the way of a member of another one is among the people of `D`. -/
structure Isolated (t : Tree) (cfg : JobConfig) (failing : IdSet) (index : Nat)
    (batches : List (List PersonId)) (entries : List BatchEntry) (D : PersonId → Prop) : Prop where
  length : entries.length = batches.length
  failed : ∀ i, i ∈ failedOf entries ↔ ∃ j batch, i = index + j ∧ batches[j]? = some batch ∧
    Stricken t cfg failing batch
  ascending : (failedOf entries).Pairwise (· < ·)
  spared : ∀ batch ∈ batches, ¬ Stricken t cfg failing batch → ∀ e ∈ batch, ∀ x a,
    t.PassedBy cfg.placeholderPassword cfg.maxDepth.toNat e x a → D x

theorem Isolated.nil (t : Tree) (cfg : JobConfig) (failing : IdSet) (index : Nat) :
    Isolated t cfg failing index [] [] fun _ => False :=
  ⟨rfl, by simp [failedOf], List.Pairwise.nil, nofun⟩

/-- One more batch in front. -/
theorem Isolated.cons {index : Nat} {batches : List (List PersonId)} {entries : List BatchEntry}
    {b : BatchEntry} {D₁ D₂ : PersonId → Prop}
    (h : Isolated t₀ cfg failing (index + 1) batches entries D₂) (hi : b.index = index)
    (hb : b.isFailed = true ↔ Stricken t₀ cfg failing batch)
    (hD : ¬ Stricken t₀ cfg failing batch → ∀ e ∈ batch, ∀ x a,
      t₀.PassedBy cfg.placeholderPassword cfg.maxDepth.toNat e x a → D₁ x) :
    Isolated t₀ cfg failing index (batch :: batches) (b :: entries) fun x => D₁ x ∨ D₂ x := by
  have hfailed (i : Nat) : i ∈ failedOf (b :: entries) ↔
      (i = index ∧ Stricken t₀ cfg failing batch) ∨ i ∈ failedOf entries := by
    rw [failedOf, List.filter_cons]
    split
    next hf => simp [failedOf, hi, hb.mp hf]
    next hf => simp [failedOf, mt hb.mpr hf]
  have hbehind : ∀ i ∈ failedOf entries, index < i := by
    intro i hmem
    obtain ⟨j, batch', rfl, -, -⟩ := (h.failed i).mp hmem
    omega
  refine ⟨congrArg (· + 1) h.length, fun i => ?_, ?_, ?_⟩
  · rw [hfailed, h.failed]
    constructor
    · intro hh
      rcases hh with ⟨rfl, hs⟩ | ⟨j, batch', rfl, hj, hs⟩
      · exact ⟨0, batch, rfl, rfl, hs⟩
      · exact ⟨j + 1, batch', by omega, hj, hs⟩
    · intro hh
      obtain ⟨j, batch', rfl, hj, hs⟩ := hh
      cases j with
      | zero =>
        cases hj
        exact .inl ⟨rfl, hs⟩
      | succ j => exact .inr ⟨j, batch', by omega, hj, hs⟩
  · have hrest := h.ascending
    rw [← hi] at hbehind
    rw [failedOf, List.filter_cons]
    split
    next => exact List.pairwise_cons.mpr ⟨hbehind, hrest⟩
    next => exact hrest
  · intro batch' hmem hs e he x a hpass
    rcases List.mem_cons.mp hmem with rfl | hmem
    · exact .inl (hD hs e he x a hpass)
    · exact .inr (h.spared batch' hmem hs e he x a hpass)

/-- Among all batches of a run, handled from the first on, the failed ones are the stricken ones. -/
theorem Isolated.mem_failedOf_iff {batches : List (List PersonId)} {entries : List BatchEntry}
    {D : PersonId → Prop} (h : Isolated t₀ cfg failing 0 batches entries D) (i : Nat) :
    i ∈ failedOf entries ↔ ∃ batch, batches[i]? = some batch ∧ Stricken t₀ cfg failing batch := by
  rw [h.failed]
  constructor
  · intro hj
    obtain ⟨j, batch, rfl, hbatch, hs⟩ := hj
    rw [Nat.zero_add]
    exact ⟨batch, hbatch, hs⟩
  · intro hi
    obtain ⟨batch, hbatch, hs⟩ := hi
    exact ⟨i, batch, (Nat.zero_add i).symm, hbatch, hs⟩

theorem Isolated.lt_of_failed {batches : List (List PersonId)} {entries : List BatchEntry}
    {D : PersonId → Prop} {i : Nat} (h : Isolated t₀ cfg failing 0 batches entries D)
    (hi : i ∈ failedOf entries) : i < batches.length := by
  obtain ⟨batch, hbatch, -⟩ := (h.mem_failedOf_iff i).mp hi
  exact (List.getElem?_eq_some_iff.mp hbatch).1

/-- A batch over a memory with failing ids: it fails if it was stricken, and otherwise fills in whoever is on the
way of its members. -/
theorem run_settle_isolated {k n : Nat} {D : PersonId → Prop} (batch : List PersonId)
    (hmem : ∀ e ∈ batch, (t₀.person? e).isSome ∧ t₀.stateOf cfg.placeholderPassword e = .empty)
    (h : Underway id (·.failing = failing) t₀ cfg.placeholderPassword k D n s) :
    ∃ r m s', ∃ D' : PersonId → Prop, (settle cfg (t₀.fullIds cfg.placeholderPassword) batch).run MemoryStore.store s =
        (.ok r, s') ∧
      Underway id (·.failing = failing) t₀ cfg.placeholderPassword k (fun x => D x ∨ D' x) (n + m) s' ∧
      (((∃ e, r = .error e) ∧ Stricken t₀ cfg failing batch) ∨
        ((∃ outcome, r = .ok outcome ∧ ∀ i size, (⟨i, size, outcome⟩ : BatchEntry).isFailed = false) ∧
          ¬ Stricken t₀ cfg failing batch ∧
          ∀ x, D' x ↔ ∃ e ∈ batch, ∃ a,
            t₀.PassedBy cfg.placeholderPassword cfg.maxDepth.toNat e x a)) := by
  obtain ⟨r, m, s', D', hrun, hend, -, hr⟩ := run_settle (MemoryStore.hosts failing) batch hmem h
  obtain ⟨r', s'', hrun', hfails⟩ := run_settle_memory (s := s) h.filled.contained hmem
  rw [hrun, Prod.mk.injEq, Except.ok.injEq] at hrun'
  obtain ⟨rfl, rfl⟩ := hrun'
  rw [h.inv] at hfails
  refine ⟨r, m, s', D', hrun, hend, ?_⟩
  rcases hr with ⟨rfl, hD'⟩ | ⟨he, -⟩
  · refine .inr ⟨⟨_, rfl, fun _ _ => rfl⟩, fun hs => ?_, hD'⟩
    obtain ⟨e, he⟩ := hfails.mpr hs
    cases he
  · exact .inl ⟨he, hfails.mp he⟩

theorem run_settleAll_isolated {k n : Nat} {D : PersonId → Prop} (batches : List (List PersonId))
    (index : Nat) (done : List BatchEntry) (hne : ∀ batch ∈ batches, batch ≠ [])
    (hmem : ∀ e ∈ batches.flatten, (t₀.person? e).isSome ∧
      t₀.stateOf cfg.placeholderPassword e = .empty)
    (h : Underway id (·.failing = failing) t₀ cfg.placeholderPassword k D n s) :
    ∃ entries m s', ∃ D' : PersonId → Prop,
      (settleAll cfg (t₀.fullIds cfg.placeholderPassword) index batches done).run MemoryStore.store s =
        (.ok (done.reverse ++ entries), s') ∧
      Underway id (·.failing = failing) t₀ cfg.placeholderPassword k (fun x => D x ∨ D' x) (n + m) s' ∧
      Isolated t₀ cfg failing index batches entries D' := by
  induction batches generalizing index done s D n with
  | nil =>
    exact ⟨[], 0, s, fun _ => False, by simp [settleAll], h.congr (by simp), .nil t₀ cfg failing index⟩
  | cons batch rest ih =>
    obtain ⟨r, m₁, s₁, D₁, hrun₁, h₁, hr⟩ := run_settle_isolated batch
      (fun e he => hmem e (List.mem_append_left _ he)) h
    -- The batches behind this one are handled alike, whichever entry it gets.
    have behind (b : BatchEntry) (hi : b.index = index)
        (hb : b.isFailed = true ↔ Stricken t₀ cfg failing batch)
        (hD : ¬ Stricken t₀ cfg failing batch → ∀ e ∈ batch, ∀ x a,
          t₀.PassedBy cfg.placeholderPassword cfg.maxDepth.toNat e x a → D₁ x) :
        ∃ entries m s', ∃ D' : PersonId → Prop,
          (settleAll cfg (t₀.fullIds cfg.placeholderPassword) (index + 1) rest (b :: done)).run
            MemoryStore.store s₁ = (.ok (done.reverse ++ entries), s') ∧
          Underway id (·.failing = failing) t₀ cfg.placeholderPassword k (fun x => D x ∨ D' x)
            (n + m) s' ∧
          Isolated t₀ cfg failing index (batch :: rest) entries D' := by
      obtain ⟨entries, m₂, s₂, D₂, hrun₂, h₂, hiso⟩ := ih (index + 1) (b :: done)
        (fun b hb => hne b (List.mem_cons_of_mem batch hb))
        (fun e he => hmem e (List.mem_append_right _ he)) h₁
      refine ⟨b :: entries, m₁ + m₂, s₂, _, ?_, ?_, hiso.cons hi hb hD⟩
      · rw [hrun₂, List.reverse_cons, List.append_assoc, List.singleton_append]
      · rw [Nat.add_assoc] at h₂
        exact h₂.congr fun x => or_assoc
    rw [settleAll, Prog.run_bind_ok hrun₁]
    rcases hr with ⟨⟨e, rfl⟩, hs⟩ | ⟨⟨outcome, rfl, hgood⟩, hs, hD₁⟩
    · obtain ⟨first, others, rfl⟩ := List.exists_cons_of_ne_nil (hne batch List.mem_cons_self)
      exact behind ⟨index, (first :: others).length, .failed first e⟩ rfl (iff_of_true rfl hs)
        (absurd hs)
    · refine behind ⟨index, batch.length, outcome⟩ rfl ?_ fun _ e he x a hpass => ?_
      · rw [hgood]
        exact iff_of_false Bool.false_ne_true hs
      · exact (hD₁ x).mpr ⟨e, he, a, hpass⟩

theorem run_propagation_isolated (hb : cfg.batchSize ≠ 0) (s : MemoryStore) :
    ∃ entries m s', ∃ D : PersonId → Prop, (propagation cfg).run MemoryStore.store s = (.ok (.ok {
        report := entries.foldl PropagationReport.count
          { emptyNodes := s.tree.emptyIds.length
            terminators := (s.tree.fullIds cfg.placeholderPassword).size }
        batches := entries }), s') ∧
      s.tree.Filled cfg.placeholderPassword D m s'.tree ∧
      Isolated s.tree cfg s.failing 0 (batchesOf cfg.batchSize s.tree.emptyIds) entries D := by
  obtain ⟨s₂, -, hs₂, ha, hends⟩ :=
    run_propagation_of_settleAll (MemoryStore.hosts s.failing) hb (s := s) rfl
  have hstart : Underway id (·.failing = s.failing) s.tree cfg.placeholderPassword
      s.usage.nodesWritten (fun _ => False) 0 s :=
    ⟨rfl, .start _ _, rfl⟩
  obtain ⟨entries, m, s', D, hrun, hend, hiso⟩ := run_settleAll_isolated
    (batchesOf cfg.batchSize s.tree.emptyIds) 0 [] (fun _ => ne_nil_of_mem_batchesOf)
    (fun _ => mem_batchesOf_emptyIds) (hstart.of_alike hs₂ ha)
  refine ⟨entries, m, s', D, hends entries s' hrun, ?_, hiso⟩
  rw [Nat.zero_add] at hend
  exact hend.filled.congr fun x => by rw [false_or]

end Propagation

open Propagation

/-- Propagation over a memory in which some ids fail all the time. A batch fails exactly if one of its members is
failing or passes a failing id on the way up to its nearest full ancestor within reach; the report names these
batches in ascending order. Whoever is on the way of a member of another batch takes over the login at its end, as
in a run without failures, and nobody changes but to the login of its nearest full ancestor. -/
theorem failed_batches_are_isolated {cfg : JobConfig} (hv : cfg.validate = .ok ()) (s : MemoryStore) :
    ∃ run s' clean s₀, (propagation cfg).run MemoryStore.store s = (.ok (.ok run), s') ∧
      (propagation cfg).run MemoryStore.store { s with failing := ∅ } = (.ok (.ok clean), s₀) ∧
      (∀ i, i ∈ run.report.failedBatches ↔
        ∃ batch, (batchesOf cfg.batchSize s.tree.emptyIds)[i]? = some batch ∧
          Stricken s.tree cfg s.failing batch) ∧
      run.report.failedBatches.Pairwise (· < ·) ∧
      (∀ i ∈ run.report.failedBatches, i < run.report.batches) ∧
      (∀ i batch, (batchesOf cfg.batchSize s.tree.emptyIds)[i]? = some batch →
        i ∉ run.report.failedBatches → ∀ e ∈ batch, ∀ x a r c,
          s.tree.PassedBy cfg.placeholderPassword cfg.maxDepth.toNat e x a →
          s.tree.person? x = some r → s.tree.credentialsOf a = some c →
          s'.tree.person? x = some (r.holding c) ∧ s₀.tree.person? x = some (r.holding c)) ∧
      ∀ x, s'.tree.person? x ≠ s.tree.person? x →
        s.tree.TakenOver s'.tree cfg.placeholderPassword x := by
  have hb : cfg.batchSize ≠ 0 := (JobConfig.validate_eq_ok_iff.mp hv).2.1
  obtain ⟨entries, m, s', D, hrun, hfilled, hiso⟩ := run_propagation_isolated hb s
  obtain ⟨clean, s₀, hclean, -, hprop, -⟩ :=
    exists_run_propagation hb (s := { s with failing := ∅ }) fun x => Std.TreeSet.not_mem_emptyc
  have hreport := PropagationReport.foldl_count entries
    { emptyNodes := s.tree.emptyIds.length
      terminators := (s.tree.fullIds cfg.placeholderPassword).size }
  refine ⟨_, s', clean, s₀, hrun, hclean, ?_⟩
  rw [hreport]
  dsimp only
  rw [List.nil_append, Nat.zero_add, hiso.length]
  refine ⟨hiso.mem_failedOf_iff, hiso.ascending, fun i hi => hiso.lt_of_failed hi,
    fun i batch hi hnot e he x a r c hpass hr hc => ?_,
    fun x hne => (hfilled.contained.people x).resolve_left hne⟩
  have hmem := List.mem_of_getElem? hi
  have hspared : ¬ Stricken s.tree cfg s.failing batch :=
    fun hs => hnot ((hiso.mem_failedOf_iff i).mpr ⟨batch, hi, hs⟩)
  obtain ⟨hp, hempty⟩ := mem_batchesOf_emptyIds (List.mem_flatten.mpr ⟨batch, hmem, he⟩)
  have hway : s.tree.OnTheWay cfg.placeholderPassword cfg.maxDepth.toNat x a :=
    ⟨e, hp, hempty, hpass⟩
  have hfull : s'.tree.stateOf cfg.placeholderPassword x = .full :=
    (hfilled.full_iff x).mpr (.inr ⟨by rw [hr, Option.isSome_some],
      hiso.spared batch hmem hspared e he x a hpass⟩)
  exact ⟨hfilled.contained.person?_of_passed hpass hway.not_full hfull hr hc,
    hprop.holds x a r c hway hr hc⟩

/-- One batch with the person whose parent is failing, and one with the other: the first fails and the second
does not. -/
theorem failed_batch_spares_neighbour :
    ({ placeholderPassword := "changeme", batchSize := 1 } : JobConfig).validate = .ok () ∧
      ∃ run s', (propagation { placeholderPassword := "changeme", batchSize := 1 }).run MemoryStore.store
          { tree := .neighbours, failing := .ofIds [⟨"mid"⟩] } = (.ok (.ok run), s') ∧
        1 ∈ run.report.failedBatches ∧ 0 ∉ run.report.failedBatches ∧
        s'.tree.credentialsOf ⟨"a"⟩ = some ⟨"user-r1", "pw-r1"⟩ := by
  have hv : ({ placeholderPassword := "changeme", batchSize := 1 } : JobConfig).validate = .ok () := by
    decide
  obtain ⟨run, s', clean, s₀, hrun, -, hfailed, -, -, hspared, -⟩ := failed_batches_are_isolated hv
    { tree := .neighbours, failing := .ofIds [⟨"mid"⟩] }
  have hbatches : batchesOf 1 Tree.neighbours.emptyIds = [[⟨"a"⟩], [⟨"b"⟩]] := by decide +kernel
  have hmid : Tree.neighbours.PassedBy "changeme" 10000 ⟨"b"⟩ ⟨"mid"⟩ ⟨"r2"⟩ :=
    ⟨1, 2, by decide, by decide,
      .further (p := ⟨"mid"⟩) (by decide +kernel) (by decide +kernel)
        (.of_parent (by decide +kernel) (by decide +kernel)), by decide +kernel⟩
  have hroot : Tree.neighbours.NearestFull "changeme" 1 ⟨"a"⟩ ⟨"r1"⟩ :=
    .of_parent (by decide +kernel) (by decide +kernel)
  have hzero : 0 ∉ run.report.failedBatches := by
    rw [hfailed, hbatches]
    intro h
    obtain ⟨_, ⟨⟩, x, hx, e, he, h⟩ := h
    obtain rfl : x = ⟨"mid"⟩ := List.mem_singleton.mp (IdSet.mem_ofIds.mp hx)
    obtain rfl : e = ⟨"a"⟩ := List.mem_singleton.mp he
    rcases h with h | ⟨a, j, k, hjk, -, hn, hj⟩
    · exact absurd h (by decide)
    · -- The way of this member is a single edge, and so it passes nobody but itself.
      obtain ⟨rfl, -⟩ := hn.unique hroot
      obtain rfl : j = 0 := Nat.lt_one_iff.mp hjk
      exact absurd (Option.some.inj hj) (by decide)
  obtain ⟨r, hr⟩ : ∃ r, Tree.neighbours.person? ⟨"a"⟩ = some r :=
    Option.isSome_iff_exists.mp (by decide +kernel)
  obtain ⟨hlogin, -⟩ := hspared 0 [⟨"a"⟩] (by rw [hbatches]; rfl) hzero ⟨"a"⟩ List.mem_cons_self ⟨"a"⟩
    ⟨"r1"⟩ r ⟨"user-r1", "pw-r1"⟩ ⟨0, 1, by decide, by decide, hroot, rfl⟩ hr (by decide +kernel)
  refine ⟨hv, run, s', hrun, ?_, hzero, ?_⟩
  · rw [hfailed, hbatches]
    exact ⟨[⟨"b"⟩], rfl, ⟨"mid"⟩, IdSet.mem_ofIds.mpr List.mem_cons_self, ⟨"b"⟩, List.mem_cons_self,
      .inr ⟨⟨"r2"⟩, hmid⟩⟩
  · rw [Tree.credentialsOf_of_person hlogin, PersonRecord.credentials_holding]

end Downline
