import Downline.Proofs.Propagation.Exact

/-! Propagation after outages. A run in which calls fail may fill in some of the people on the ways up and
not others, and the next run then starts from people half way up. What the runs together have filled in is
still made up of upper ends of the first ways, so a last run without failures leaves the logins that a
single one would have left. -/

namespace Downline

namespace Tree

/-- Every empty person with a full ancestor has one at most `d` edges above it. -/
def FullWithinReach (t : Tree) (placeholder : String) (d : Nat) : Prop :=
  ∀ e k a, (t.person? e).isSome → t.stateOf placeholder e = .empty →
    t.NearestFull placeholder k e a → k ≤ d

/-- Nobody but people on the ways up has been filled in, and with each of them everyone above on its
way. -/
structure PartlyFilled (t₀ : Tree) (placeholder : String) (d : Nat) (t : Tree) : Prop where
  contained : t₀.Contained t placeholder
  passed : ∀ x, t₀.stateOf placeholder x ≠ .full → t.stateOf placeholder x = .full →
    ∃ a, t₀.OnTheWay placeholder d x a
  upward : ∀ x k a j z, t₀.stateOf placeholder x ≠ .full → t.stateOf placeholder x = .full →
    t₀.NearestFull placeholder k x a → j < k → t₀.ancestor? j x = some z →
      (t₀.person? z).isSome → t.stateOf placeholder z = .full

variable {t₀ t t' : Tree} {placeholder : String} {d k : Nat} {e x a : PersonId}

theorem FullWithinReach.of_all (h : ∀ e ∈ t.emptyIds, t.meetsFull placeholder d e = true) :
    t.FullWithinReach placeholder d := by
  intro e k a hp he ha
  obtain ⟨m, b, hm, hb⟩ := meetsFull_iff.mp (h e ((mem_emptyIds placeholder).mpr ⟨hp, he⟩))
  obtain ⟨rfl, -⟩ := ha.unique hb
  exact hm

/-! ### Nearest full people before and after -/

namespace Contained

variable (h : t₀.Contained t placeholder)
include h

/-- Whoever has a full ancestor now had one before, no nearer. -/
theorem nearest_before (ha : t.NearestFull placeholder k x a) :
    ∃ m b, k ≤ m ∧ t₀.NearestFull placeholder m x b := by
  obtain ⟨c, -, hi⟩ := ha.exists_inherits
  obtain ⟨m, b, hb, -⟩ := h.inherits_before hi
  refine ⟨m, b, ?_, hb⟩
  -- A nearer one would still be full, and `a` is the first.
  by_contra hlt
  exact ha.first m b hb.pos (by omega) ((ancestor?_congr h.parentOf m x).trans hb.reached)
    (h.full_of_full hb.holds)

theorem nearest_after (ha : t₀.NearestFull placeholder k x a) :
    ∃ m b, m ≤ k ∧ t.NearestFull placeholder m x b :=
  FirstAbove.exists_of_ancestor (P := (t.stateOf placeholder · = .full)) ha.pos
    ((ancestor?_congr h.parentOf k x).trans ha.reached) (h.full_of_full ha.holds)

end Contained

/-! ### Partly filled trees -/

namespace PartlyFilled

theorem refl (t : Tree) (placeholder : String) (d : Nat) : t.PartlyFilled placeholder d t where
  contained := .refl t placeholder
  passed _ hn hf := absurd hf hn
  upward _ _ _ _ _ hn hf := absurd hf hn

theorem of_filled {D : PersonId → Prop} {n : Nat} (h : t₀.Filled placeholder D n t)
    (hD : t₀.Ways placeholder d D) : t₀.PartlyFilled placeholder d t where
  contained := h.contained
  passed x hn hf := hD.passed x (((h.full_iff x).mp hf).resolve_left hn).2
  upward x k a j z hn hf ha hjk hz hp :=
    have hx := (((h.full_iff x).mp hf).resolve_left hn).2
    (h.full_iff z).mpr (.inr ⟨hp, hD.upward x k a j z hx ha hjk hz⟩)

/-- The person at which a way now ends, if the way went on before, was filled in together with everyone
above it on the way. -/
theorem full_above (h : t₀.PartlyFilled placeholder d t) {m j : Nat} {b z : PersonId}
    (ha : t₀.NearestFull placeholder k x a) (hb : t.NearestFull placeholder m x b) (hmj : m ≤ j)
    (hjk : j < k) (hz : t₀.ancestor? j x = some z) (hp : (t₀.person? z).isSome) :
    t.stateOf placeholder z = .full := by
  have hreach : t₀.ancestor? m x = some b :=
    (ancestor?_congr h.contained.parentOf m x).symm.trans hb.reached
  have hnew : t₀.stateOf placeholder b ≠ .full := ha.first m b hb.pos (by omega) hreach
  refine h.upward b (k - m) a (j - m) z hnew hb.holds (ha.of_passed hreach (by omega)) (by omega) ?_ hp
  rw [← ancestor?_from hreach hmj, hz]

variable (hreach : t₀.FullWithinReach placeholder d)
include hreach

/-- A way in the tree as it is now is the lower end of a way in the tree as it was. -/
theorem onTheWay_before (h : t₀.PartlyFilled placeholder d t)
    (hx : t.OnTheWay placeholder d x a) : ∃ b, t₀.OnTheWay placeholder d x b := by
  obtain ⟨e, hp, he, j, k, hjk, -, ha, hxe⟩ := hx
  have hsame : t.person? e = t₀.person? e :=
    h.contained.person?_of_not_full (by rw [he]; exact nofun)
  rw [hsame] at hp
  rw [stateOf_congr hsame] at he
  -- The way went on above where it ends now, and only the bound on all ways keeps that within reach.
  obtain ⟨m, b, hkm, hb⟩ := h.contained.nearest_before ha
  rw [ancestor?_congr h.contained.parentOf] at hxe
  exact ⟨b, e, hp, he, j, m, by omega, hreach e m b hp he hb, hb, hxe⟩

/-- What has been filled in and what a run would now fill in are together what it would have filled in
before. -/
theorem onTheWay_iff (h : t₀.PartlyFilled placeholder d t) :
    (t.stateOf placeholder x = .full ∨ (t.person? x).isSome ∧ ∃ a, t.OnTheWay placeholder d x a) ↔
      t₀.stateOf placeholder x = .full ∨
        (t₀.person? x).isSome ∧ ∃ a, t₀.OnTheWay placeholder d x a := by
  rw [h.contained.isSome_person?]
  constructor
  · intro hx
    rcases hx with hf | ⟨hp, a, hway⟩
    · by_cases hf₀ : t₀.stateOf placeholder x = .full
      · exact .inl hf₀
      · obtain ⟨r, -, hr, -⟩ := h.contained.taken_over hf₀ hf
        exact .inr ⟨by rw [hr, Option.isSome_some], h.passed x hf₀ hf⟩
    · exact .inr ⟨hp, h.onTheWay_before hreach hway⟩
  · intro hx
    rcases hx with hf | ⟨hp, a, e, hpe, he, j, k, hjk, hkd, ha, hxe⟩
    · exact .inl (h.contained.full_of_full hf)
    · by_cases hfe : t.stateOf placeholder e = .full
      · -- The origin has been filled in itself, and so has everyone on its way.
        exact .inl (h.upward e k a j x (by rw [he]; exact nofun) hfe ha hjk hxe hp)
      · have hsame := h.contained.person?_of_not_full hfe
        obtain ⟨m, b, hmk, hb⟩ := h.contained.nearest_after ha
        rcases Nat.lt_or_ge j m with hjm | hmj
        · -- The way of the origin has become shorter, but still passes `x`.
          refine .inr ⟨hp, b, e, by rwa [hsame], by rwa [stateOf_congr hsame], j, m, hjm, by omega,
            hb, ?_⟩
          rwa [ancestor?_congr h.contained.parentOf]
        · exact .inl (h.full_above ha hb hmj hjk hxe hp)

theorem trans (h : t₀.PartlyFilled placeholder d t) (h' : t.PartlyFilled placeholder d t') :
    t₀.PartlyFilled placeholder d t' where
  contained := h.contained.trans h'.contained
  passed x hn hf := by
    by_cases hx : t.stateOf placeholder x = .full
    · exact h.passed x hn hx
    · obtain ⟨a, hway⟩ := h'.passed x hx hf
      exact h.onTheWay_before hreach hway
  upward x k a j z hn hf ha hjk hz hp := by
    by_cases hx : t.stateOf placeholder x = .full
    · exact h'.contained.full_of_full (h.upward x k a j z hn hx ha hjk hz hp)
    · -- `x` was filled in last: up to its nearest full person by then, and above that one before.
      obtain ⟨m, b, hmk, hb⟩ := h.contained.nearest_after ha
      rcases Nat.lt_or_ge j m with hjm | hmj
      · refine h'.upward x m b j z hx hf hb hjm ?_ (by rwa [h.contained.isSome_person?])
        rwa [ancestor?_congr h.contained.parentOf]
      · exact h'.contained.full_of_full (h.full_above ha hb hmj hjk hz hp)

/-- Once all that could be filled in at first has been, no person is left on a way. -/
theorem nobody_left (h : t₀.PartlyFilled placeholder d t)
    (hall : t₀.stateOf placeholder x = .full ∨
        (t₀.person? x).isSome ∧ (∃ a, t₀.OnTheWay placeholder d x a) →
      t.stateOf placeholder x = .full)
    (hx : t.OnTheWay placeholder d x a) : t.person? x = none := by
  by_contra hp
  exact hx.not_full
    (hall ((h.onTheWay_iff hreach).mp (.inr ⟨Option.isSome_iff_ne_none.mpr hp, a, hx⟩)))

end PartlyFilled

end Tree

/-! ### Runs -/

namespace Propagated

variable {cfg : JobConfig} {t₀ t : Tree} {report : PropagationReport} {x : PersonId}

theorem full_iff (h : Propagated cfg t₀ t report) (hc : t₀.Contained t cfg.placeholderPassword) :
    t.stateOf cfg.placeholderPassword x = .full ↔ t₀.stateOf cfg.placeholderPassword x = .full ∨
      (t₀.person? x).isSome ∧
        ∃ a, t₀.OnTheWay cfg.placeholderPassword cfg.maxDepth.toNat x a := by
  constructor
  · intro hf
    by_cases hf₀ : t₀.stateOf cfg.placeholderPassword x = .full
    · exact .inl hf₀
    · have hne : t.person? x ≠ t₀.person? x := fun he => hf₀ ((Tree.stateOf_congr he).symm.trans hf)
      obtain ⟨hp, -, hway⟩ := (h.changed_iff x).mp hne
      exact .inr ⟨hp, hway⟩
  · intro hx
    rcases hx with hf | ⟨hp, a, hway⟩
    · exact hc.full_of_full hf
    · have hne := (h.changed_iff x).mpr ⟨hp, hway.not_full, a, hway⟩
      exact ((hc.people x).resolve_left hne).full

/-- A run changes nobody if nobody is on the way. -/
theorem idle (h : Propagated cfg t₀ t report)
    (hdone : ∀ x a, t₀.OnTheWay cfg.placeholderPassword cfg.maxDepth.toNat x a →
      t₀.person? x = none) :
    report.nodesWritten = 0 ∧ ∀ x, t.person? x = t₀.person? x := by
  have hsame : ∀ x, t.person? x = t₀.person? x := by
    intro x
    by_contra hne
    obtain ⟨hp, -, a, hway⟩ := (h.changed_iff x).mp hne
    rw [hdone x a hway] at hp
    exact absurd hp nofun
  refine ⟨?_, hsame⟩
  rw [h.report_eq]
  exact (Tree.length_loginChanges_congr hsame).trans t₀.length_loginChanges_self

end Propagated

namespace Propagation

variable {σ : Type} {S : Store σ} {memory : σ → MemoryStore} {may : IdSet → Prop} {I : σ → Prop}
  {s : σ}

/-- The store after runs with batches of these sizes, one after another. -/
def rerun (S : Store σ) (cfg : JobConfig) (sizes : List Nat) (s : σ) : σ :=
  sizes.foldl (fun s b => ((propagation { cfg with batchSize := b }).run S s).2) s

theorem partlyFilled_run (hS : S.Hosts memory may I) (cfg : JobConfig) (hs : I s) :
    I ((propagation cfg).run S s).2 ∧
      (memory s).tree.PartlyFilled cfg.placeholderPassword cfg.maxDepth.toNat
        (memory ((propagation cfg).run S s).2).tree := by
  by_cases hb : cfg.batchSize = 0
  · obtain ⟨s', hrun, hs', ha⟩ := run_propagation_zero hS hb hs
    rw [hrun, ha.tree]
    exact ⟨hs', .refl _ _ _⟩
  · obtain ⟨entries, m, s', D, hrun, hend, hent, -⟩ := run_propagation hS hb hs
    rw [hrun]
    exact ⟨hend.inv, .of_filled hend.filled hent.ways⟩

theorem partlyFilled_rerun (hS : S.Hosts memory may I) {cfg : JobConfig} {t₀ : Tree}
    (hreach : t₀.FullWithinReach cfg.placeholderPassword cfg.maxDepth.toNat) (sizes : List Nat)
    (hs : I s)
    (h : t₀.PartlyFilled cfg.placeholderPassword cfg.maxDepth.toNat (memory s).tree) :
    t₀.PartlyFilled cfg.placeholderPassword cfg.maxDepth.toNat
      (memory (rerun S cfg sizes s)).tree := by
  induction sizes generalizing s with
  | nil => exact h
  | cons b rest ih =>
    obtain ⟨hs', hrun⟩ := partlyFilled_run hS { cfg with batchSize := b } hs
    exact ih hs' (h.trans hreach hrun)

end Propagation

/-- Propagation runs among outages, and then one without: everybody ends up with the login that a single
run without outages would have given, and a further run finds nothing left to write. -/
theorem reruns_repair_propagation {cfg : JobConfig} (hb : cfg.batchSize ≠ 0) {w : Watched}
    (hw : w.OutagesOnly)
    (hreach : w.memory.tree.FullWithinReach cfg.placeholderPassword cfg.maxDepth.toNat) :
    ∃ run s', (propagation cfg).run MemoryStore.store (w.memory.edit .clearFailures) =
        (.ok (.ok run), s') ∧
      ∀ sizes b, b ≠ 0 → ∃ run₂ s₂,
        (propagation { cfg with batchSize := b }).run MemoryStore.store
            ((Propagation.rerun Watched.store cfg sizes w).memory.edit .clearFailures) =
          (.ok (.ok run₂), s₂) ∧
        (∀ x, s₂.tree.person? x = s'.tree.person? x) ∧ s₂.tree.relations = s'.tree.relations ∧
        ∀ b', b' ≠ 0 → ∃ run₃ s₃,
          (propagation { cfg with batchSize := b' }).run MemoryStore.store s₂ =
            (.ok (.ok run₃), s₃) ∧
          run₃.report.nodesWritten = 0 ∧ run₃.report.failedBatches = [] ∧
          (∀ x, s₃.tree.person? x = s₂.tree.person? x) ∧ s₃.tree.relations = s₂.tree.relations := by
  have hcleared (s : MemoryStore) : ∀ x, x ∉ (s.edit .clearFailures).failing :=
    fun x => Std.TreeSet.not_mem_emptyc
  obtain ⟨run, s', hrun, -, hprop, hcont⟩ := exists_run_propagation hb (hcleared w.memory)
  refine ⟨run, s', hrun, fun sizes b hb' => ?_⟩
  have hpart := Propagation.partlyFilled_rerun Watched.hosts hreach sizes hw (.refl _ _ _)
  obtain ⟨run₂, s₂, hrun₂, hfail₂, hprop₂, hcont₂⟩ := exists_run_propagation
    (show { cfg with batchSize := b }.batchSize ≠ 0 from hb')
    (hcleared (Propagation.rerun Watched.store cfg sizes w).memory)
  obtain ⟨-, hclean⟩ := Propagation.partlyFilled_run (MemoryStore.hosts _)
    { cfg with batchSize := b }
    (s := (Propagation.rerun Watched.store cfg sizes w).memory.edit .clearFailures) rfl
  rw [hrun₂] at hclean
  -- The runs among outages and the clean one behind them are one way of filling in the first tree, so who is
  -- full in the end decides all the logins.
  have hboth := hpart.trans hreach hclean
  have hfull (x : PersonId) := (hprop₂.full_iff hcont₂).trans (hpart.onTheWay_iff (x := x) hreach)
  refine ⟨run₂, s₂, hrun₂, fun x => ?_, ?_, fun b' hb₃ => ?_⟩
  · exact hcont.person?_eq hboth.contained ((hfull x).trans (hprop.full_iff hcont).symm)
  · exact hboth.contained.relations.trans hcont.relations.symm
  · obtain ⟨run₃, s₃, hrun₃, -, hprop₃, -⟩ := exists_run_propagation
      (show { cfg with batchSize := b' }.batchSize ≠ 0 from hb₃) (s := s₂)
      (by rw [hfail₂]; exact hcleared _)
    obtain ⟨hzero, hsame⟩ := hprop₃.idle fun x a => hboth.nobody_left hreach (hfull x).mpr
    exact ⟨run₃, s₃, hrun₃, hzero, by rw [hprop₃.report_eq], hsame, hprop₃.relations⟩

/-- An outage between the two writes of a batch lasts until the next run is over; the last run fills in the
rest. -/
theorem rerun_repairs_neighbours : ∃ w : Watched, w.memory.tree = .neighbours ∧ w.OutagesOnly ∧
    (Propagation.rerun Watched.store { placeholderPassword := "changeme" } [1000, 1]
        w).memory.tree.credentialsOf ⟨"a"⟩ = some ⟨"user-r1", "pw-r1"⟩ ∧
    (Propagation.rerun Watched.store { placeholderPassword := "changeme" } [1000, 1]
        w).memory.tree.credentialsOf ⟨"b"⟩ = none ∧
    ∃ run₂ s₂, (propagation { placeholderPassword := "changeme", batchSize := 2 }).run
        MemoryStore.store ((Propagation.rerun Watched.store { placeholderPassword := "changeme" }
          [1000, 1] w).memory.edit .clearFailures) = (.ok (.ok run₂), s₂) ∧
      s₂.tree.credentialsOf ⟨"b"⟩ = some ⟨"user-r2", "pw-r2"⟩ := by
  let w : Watched := {
    memory := { tree := .neighbours }
    outside := fun n => if n = 4 then [.failOn ⟨"mid"⟩] else [] }
  have hw : w.OutagesOnly := by
    intro n e he
    dsimp only [w] at he
    split at he
    · rw [List.mem_singleton.mp he]
      trivial
    · cases he
  have hreach : w.memory.tree.FullWithinReach "changeme" 10000 := by
    refine .of_all ?_
    decide +kernel
  have hb : ({ placeholderPassword := "changeme" } : JobConfig).batchSize ≠ 0 := by decide
  obtain ⟨run, s', hrun, h⟩ := reruns_repair_propagation hb hw hreach
  obtain ⟨run₂, s₂, hrun₂, hsame, -⟩ := h [1000, 1] 2 (by decide)
  refine ⟨w, rfl, hw, by decide +kernel, by decide +kernel, run₂, s₂, hrun₂, ?_⟩
  have hs' : s' = ((propagation { placeholderPassword := "changeme" }).run MemoryStore.store
      (w.memory.edit .clearFailures)).2 := by
    rw [hrun]
  rw [Tree.credentialsOf_congr (hsame _), hs']
  decide +kernel

end Downline
