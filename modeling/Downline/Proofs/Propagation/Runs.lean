import Downline.Proofs.Outages
import Downline.Proofs.Propagation.Filling
import Downline.Proofs.Propagation.Groups
import Mathlib.Algebra.BigOperators.Group.List.Basic
import Mathlib.Algebra.GroupWithZero.Nat

/-! Propagation runs over stores that may refuse calls. A batch writes its groups one after another until a
call is refused; the batches behind it go on. Whoever has been filled in by then, so has everyone above on
the way, and each person was counted once; but the report leaves out what a failing batch has written. -/

namespace Downline

/-! ### Reports -/

namespace BatchEntry

/-- The people whom the report counts as written by a batch. -/
def written (b : BatchEntry) : Nat :=
  match b.outcome with
  | .settled written _ => written
  | .failed .. => 0

/-- The empty people whom the report counts as unreachable for a batch. -/
def unreachable (b : BatchEntry) : Nat :=
  match b.outcome with
  | .settled _ unreachable => unreachable
  | .failed .. => 0

def isFailed (b : BatchEntry) : Bool :=
  match b.outcome with
  | .settled .. => false
  | .failed .. => true

end BatchEntry

theorem PropagationReport.foldl_count (entries : List BatchEntry) (r : PropagationReport) :
    entries.foldl count r = { r with
      batches := r.batches + entries.length
      failedBatches := r.failedBatches ++ (entries.filter (·.isFailed)).map (·.index)
      nodesWritten := r.nodesWritten + (entries.map (·.written)).sum
      unreachable := r.unreachable + (entries.map (·.unreachable)).sum } := by
  induction entries generalizing r with
  | nil => simp
  | cons b rest ih =>
    obtain ⟨index, size, ⟨written, unreachable⟩ | ⟨first, e⟩⟩ := b
    · simp [ih, count, BatchEntry.written, BatchEntry.unreachable, BatchEntry.isFailed]
      omega
    · simp [ih, count, BatchEntry.written, BatchEntry.unreachable, BatchEntry.isFailed]
      omega

namespace Propagation

variable {σ : Type}

/-- The people whom batches that fail have written by then; `written` is the store's own count. -/
def unreported (S : Store σ) (written : σ → Nat) (cfg : JobConfig) (full : IdSet) :
    List (List PersonId) → σ → Nat
  | [], _ => 0
  | batch :: rest, s =>
    match (settle cfg full batch).run S s with
    | (.ok (.ok _), s') => unreported S written cfg full rest s'
    | (_, s') => written s' - written s + unreported S written cfg full rest s'

/-- The people whom the failing batches of a whole run have written. -/
def unreportedBy (S : Store σ) (memory : σ → MemoryStore) (cfg : JobConfig) (s : σ) : Nat :=
  unreported S (fun s => (memory s).usage.nodesWritten) cfg
    ((memory s).tree.fullIds cfg.placeholderPassword)
    (batchesOf cfg.batchSize (memory s).tree.emptyIds)
    (S.call (.fullIds cfg.placeholderPassword) (S.call .emptyIds s).2).2

/-- How many of these people have no full ancestor within reach. -/
def outOfReach (t : Tree) (cfg : JobConfig) (people : List PersonId) : Nat :=
  (people.filter fun e => !t.meetsFull cfg.placeholderPassword cfg.maxDepth.toNat e).length

theorem outOfReach_append (t : Tree) (cfg : JobConfig) (l l' : List PersonId) :
    outOfReach t cfg (l ++ l') = outOfReach t cfg l + outOfReach t cfg l' := by
  rw [outOfReach, List.filter_append, List.length_append]
  rfl

/-! ### The groups of a batch -/

section Batch

variable {t₀ : Tree} {cfg : JobConfig} {batch : List PersonId} {g : Inheritance} {x a : PersonId}

/-- The paths that the origins of a batch have to the full people of a tree. -/
def pathsOf (t : Tree) (cfg : JobConfig) (batch : List PersonId) : List UpwardPath :=
  batch.filterMap (t.upwardPath? (t.fullIds cfg.placeholderPassword) cfg.maxDepth)

/-- The groups that a batch writes, one after another. -/
def groupsOf (t : Tree) (cfg : JobConfig) (batch : List PersonId) : List Inheritance :=
  (inheritances (t.fullIds cfg.placeholderPassword) (pathsOf t cfg batch)).toList.map (·.2)

/-- What the groups of a batch pass on is inherited by their members. -/
theorem inherits_of_group (hg : g ∈ groupsOf t₀ cfg batch) (hx : x ∈ g.targets) :
    t₀.Inherits cfg.placeholderPassword x g.credentials := by
  obtain ⟨a, ha⟩ := mem_inheritances hg
  obtain ⟨path, hpath, rfl, hwalk, -⟩ :=
    (isTarget_inheritances _ _ a x).mp ⟨g, ha, hx⟩
  -- Every path to the same terminator carries the terminator's own login.
  have hlogin : ∀ p ∈ pathsOf t₀ cfg batch,
      t₀.credentialsOf p.terminator = some p.credentials := by
    intro p hp
    obtain ⟨e, -, he⟩ := List.mem_filterMap.mp hp
    obtain ⟨-, -, -, -, hc, -⟩ := Tree.upwardPath?_fullIds.mp he
    exact hc
  have hc : t₀.credentialsOf path.terminator = some g.credentials := by
    obtain ⟨first, hfirst, hterm, hcred⟩ := exists_path_of_inheritance ha
    rw [← hterm, ← hcred]
    exact hlogin first hfirst
  obtain ⟨e, -, he⟩ := List.mem_filterMap.mp hpath
  obtain ⟨-, k, -, hn, -, -, hw⟩ := Tree.upwardPath?_fullIds.mp he
  rw [hw] at hwalk
  obtain ⟨j, hjk, hj⟩ := Tree.mem_walk.mp hwalk
  exact ⟨k - j, _, hn.of_passed hj hjk, hc⟩

section Empty

variable (hmem : ∀ e ∈ batch, (t₀.person? e).isSome ∧
  t₀.stateOf cfg.placeholderPassword e = .empty)
include hmem

/-- Those who take over the login of `a` are the people whom the origins pass on their way up to it. -/
theorem isTarget_pathsOf :
    IsTarget (inheritances (t₀.fullIds cfg.placeholderPassword) (pathsOf t₀ cfg batch)) a x ↔
      ∃ e ∈ batch, t₀.PassedBy cfg.placeholderPassword cfg.maxDepth.toNat e x a := by
  rw [isTarget_inheritances]
  constructor
  · -- A walk of `k` people holds `x` some `j` edges above its origin.
    intro h
    obtain ⟨path, hpath, rfl, hwalk, -⟩ := h
    obtain ⟨e, heb, hep⟩ := List.mem_filterMap.mp hpath
    obtain ⟨-, k, hk, hn, -, -, hw⟩ := Tree.upwardPath?_fullIds.mp hep
    rw [hw] at hwalk
    obtain ⟨j, hjk, hj⟩ := Tree.mem_walk.mp hwalk
    exact ⟨e, heb, j, k, hjk, hk, hn, hj⟩
  · intro h
    obtain ⟨e, heb, hpass⟩ := h
    have hnf : t₀.stateOf cfg.placeholderPassword x ≠ .full :=
      hpass.not_full (by rw [(hmem e heb).2]; exact nofun)
    obtain ⟨j, k, hjk, hk, hn, hj⟩ := hpass
    obtain ⟨c, hc, -⟩ := hn.exists_inherits
    have hpath : ⟨e, t₀.walk k e, a, c⟩ ∈ pathsOf t₀ cfg batch := by
      refine List.mem_filterMap.mpr ⟨e, heb, ?_⟩
      exact Tree.upwardPath?_fullIds.mpr ⟨(hmem e heb).1, k, hk, hn, hc, rfl, rfl⟩
    exact ⟨_, hpath, rfl, Tree.mem_walk.mpr ⟨j, hjk, hj⟩, fun hm => hnf (Tree.mem_fullIds.mp hm)⟩

/-- The members of the groups are the people whom the origins pass on their way. -/
theorem exists_group_iff : (∃ g ∈ groupsOf t₀ cfg batch, x ∈ g.targets) ↔
    ∃ e ∈ batch, ∃ a, t₀.PassedBy cfg.placeholderPassword cfg.maxDepth.toNat e x a := by
  constructor
  · intro h
    obtain ⟨g, hg, hx⟩ := h
    obtain ⟨a, ha⟩ := mem_inheritances hg
    obtain ⟨e, heb, hpass⟩ := (isTarget_pathsOf hmem).mp ⟨g, ha, hx⟩
    exact ⟨e, heb, a, hpass⟩
  · intro h
    obtain ⟨e, heb, a, hpass⟩ := h
    exact mem_toList_of_isTarget ((isTarget_pathsOf hmem).mpr ⟨e, heb, hpass⟩)

/-- Together with a person a group lists everyone above it on the way. -/
theorem ways_of_groups {some : List Inheritance} (hsub : some ⊆ groupsOf t₀ cfg batch) :
    t₀.Ways cfg.placeholderPassword cfg.maxDepth.toNat fun x => ∃ g ∈ some, x ∈ g.targets := by
  refine ⟨fun x hx => ?_, fun x k b j z hx hb hjk hz => ?_⟩
  · obtain ⟨g, hg, hx⟩ := hx
    obtain ⟨e, heb, a, hpass⟩ := (exists_group_iff hmem).mp ⟨g, hsub hg, hx⟩
    exact ⟨a, e, (hmem e heb).1, (hmem e heb).2, hpass⟩
  · obtain ⟨g, hg, hx⟩ := hx
    obtain ⟨a, ha⟩ := mem_inheritances (hsub hg)
    obtain ⟨e, heb, hpass⟩ := (isTarget_pathsOf hmem).mp ⟨g, ha, hx⟩
    obtain ⟨g', hg', hz'⟩ := (isTarget_pathsOf hmem).mpr ⟨e, heb, hpass.upward hb hjk hz⟩
    cases ha.symm.trans hg'
    exact ⟨g, hg, hz'⟩

/-- The origins from which no path starts are those with no full person within reach. -/
theorem length_unreached :
    (unreached batch (pathsOf t₀ cfg batch)).length = outOfReach t₀ cfg batch := by
  refine congrArg List.length (List.filter_congr fun e heb => ?_)
  rw [← Tree.isSome_upwardPath? (hmem e heb).1, Bool.not_inj_iff, Bool.eq_iff_iff,
    Std.TreeSet.contains_iff_mem, IdSet.mem_ofIds, List.mem_map, Option.isSome_iff_exists]
  constructor
  · intro h
    obtain ⟨path, hpath, rfl⟩ := h
    obtain ⟨e', -, he'⟩ := List.mem_filterMap.mp hpath
    obtain ⟨-, -, -, -, -, ho, -⟩ := Tree.upwardPath?_fullIds.mp he'
    exact ⟨path, by rw [ho]; exact he'⟩
  · intro h
    obtain ⟨path, hpath⟩ := h
    obtain ⟨-, -, -, -, -, ho, -⟩ := Tree.upwardPath?_fullIds.mp hpath
    exact ⟨path, List.mem_filterMap.mpr ⟨e, heb, hpath⟩, ho⟩

end Empty

end Batch

/-! ### Runs -/

/-- A moment of a run that began with the tree `t₀`, when `k` people had been written before: the people of
`D` have been filled in since, and they are `n`. -/
structure Underway (memory : σ → MemoryStore) (I : σ → Prop) (t₀ : Tree) (placeholder : String)
    (k : Nat) (D : PersonId → Prop) (n : Nat) (s : σ) : Prop where
  inv : I s
  filled : t₀.Filled placeholder D n (memory s).tree
  counted : (memory s).usage.nodesWritten = k + n

section Runs

variable {S : Store σ} {memory : σ → MemoryStore} {may : IdSet → Prop} {I : σ → Prop} {t₀ : Tree}
  {placeholder : String} {k n : Nat} {D D' : PersonId → Prop} {s s' : σ}

theorem Underway.of_alike (h : Underway memory I t₀ placeholder k D n s) (hs' : I s')
    (ha : (memory s').Alike (memory s)) : Underway memory I t₀ placeholder k D n s' :=
  ⟨hs', by rw [ha.tree]; exact h.filled, ha.nodesWritten.trans h.counted⟩

theorem Underway.congr (h : Underway memory I t₀ placeholder k D n s) (hD : ∀ x, D x ↔ D' x) :
    Underway memory I t₀ placeholder k D' n s :=
  ⟨h.inv, h.filled.congr hD, h.counted⟩

variable (hS : S.Hosts memory may I)
include hS

/-- Groups are written one after another until a write is refused. -/
theorem run_writeAll (groups : List Inheritance) (written : Nat)
    (hi : ∀ g ∈ groups, ∀ x ∈ g.targets, t₀.Inherits placeholder x g.credentials)
    (h : Underway memory I t₀ placeholder k D n s) :
    ∃ r m s' finished, (writeAll (.notFull placeholder) groups written).run S s = (.ok r, s') ∧
      finished ⊆ groups ∧
      Underway memory I t₀ placeholder k (fun x => D x ∨ ∃ g ∈ finished, x ∈ g.targets) (n + m) s' ∧
      ((r = .ok (written + m) ∧ finished = groups) ∨ (∃ e, r = .error e) ∧ MayRefuse may) := by
  induction groups generalizing s D n written with
  | nil => exact ⟨_, 0, s, [], rfl, List.Subset.refl _, h.congr (by simp), .inl ⟨rfl, rfl⟩⟩
  | cons g rest ih =>
    obtain ⟨s₁, hs₁, ⟨hc, ht, hn⟩ | ⟨e, hc, ha, hmay⟩⟩ :=
      hS.call_setCredentials h.inv g.targets.toList g.credentials (.notFull placeholder)
    · have hw := h.filled.write fun x (hx : x ∈ g.targets.toList) =>
        hi g List.mem_cons_self x (Std.TreeSet.mem_toList.mp hx)
      rw [← ht] at hw
      -- Of this write the rest of the run sees only its count.
      generalize ((memory s).tree.write g.targets.toList g.credentials (.notFull placeholder)).1 = j
        at hc hn hw
      obtain ⟨r, m, s', finished, hrun, hsub, hend, hr⟩ := ih (written + j)
        (fun g' hg' => hi g' (List.mem_cons_of_mem g hg'))
        ⟨hs₁, hw, by rw [hn, h.counted, Nat.add_assoc]⟩
      refine ⟨r, j + m, s', g :: finished, ?_, List.cons_subset_cons g hsub, ?_, ?_⟩
      · rw [writeAll, Prog.run_request_ok (by rw [hc]), hc]
        exact hrun
      · rw [Nat.add_assoc] at hend
        refine hend.congr fun x => ?_
        rw [List.exists_mem_cons_iff, Std.TreeSet.mem_toList, or_assoc]
      · rw [Nat.add_assoc] at hr
        exact hr.imp_left (And.imp_right (congrArg (g :: ·)))
    · refine ⟨.error e, 0, s₁, [], ?_, List.nil_subset _, (h.of_alike hs₁ ha).congr (by simp),
        .inr ⟨⟨e, rfl⟩, hmay⟩⟩
      rw [writeAll, Prog.run_request_error (by rw [hc]), hc]
      rfl

section Settle

variable {cfg : JobConfig}

/-- A batch is settled, or it fails with some of its groups written. -/
theorem run_settle (batch : List PersonId) (hmem : ∀ e ∈ batch, (t₀.person? e).isSome ∧
      t₀.stateOf cfg.placeholderPassword e = .empty)
    (h : Underway memory I t₀ cfg.placeholderPassword k D n s) :
    ∃ r m s' D', (settle cfg (t₀.fullIds cfg.placeholderPassword) batch).run S s = (.ok r, s') ∧
      Underway memory I t₀ cfg.placeholderPassword k (fun x => D x ∨ D' x) (n + m) s' ∧
      t₀.Ways cfg.placeholderPassword cfg.maxDepth.toNat D' ∧
      ((r = .ok (.settled m (outOfReach t₀ cfg batch)) ∧
          ∀ x, D' x ↔ ∃ e ∈ batch, ∃ a,
            t₀.PassedBy cfg.placeholderPassword cfg.maxDepth.toNat e x a) ∨
        (∃ e, r = .error e) ∧ MayRefuse may) := by
  obtain ⟨s₁, hs₁, ha, hc | ⟨e, hc, hmay⟩⟩ :=
    hS.call_upwardPaths h.inv batch (t₀.fullIds cfg.placeholderPassword) cfg.maxDepth
  · -- The terminators are those of the beginning and keep their logins, so the ways up are the same still.
    have hpaths : batch.filterMap
        ((memory s).tree.upwardPath? (t₀.fullIds cfg.placeholderPassword) cfg.maxDepth) =
          pathsOf t₀ cfg batch :=
      List.filterMap_congr fun e _ => h.filled.contained.upwardPath?_eq cfg.maxDepth e
    rw [hpaths] at hc
    obtain ⟨r, m, s', finished, hrun, hsub, hend, hr⟩ := run_writeAll hS (groupsOf t₀ cfg batch) 0
      (fun g hg x hx => inherits_of_group hg hx) (h.of_alike hs₁ ha)
    have hsettle : (settle cfg (t₀.fullIds cfg.placeholderPassword) batch).run S s =
        (.ok (r.map fun m => .settled m (unreached batch (pathsOf t₀ cfg batch)).length), s') := by
      rw [settle, Prog.run_request_ok (by rw [hc]), hc]
      dsimp only
      rw [groupsOf] at hrun
      rw [Prog.run_bind_ok hrun]
      cases r <;> rfl
    refine ⟨_, m, s', _, hsettle, hend, ways_of_groups hmem hsub, ?_⟩
    rcases hr with ⟨rfl, rfl⟩ | ⟨⟨e, rfl⟩, hmay⟩
    · rw [length_unreached hmem, Nat.zero_add]
      exact .inl ⟨rfl, fun x => exists_group_iff hmem⟩
    · exact .inr ⟨⟨e, rfl⟩, hmay⟩
  · refine ⟨.error e, 0, s₁, fun _ => False, ?_, (h.of_alike hs₁ ha).congr (by simp), .none _ _ _,
      .inr ⟨⟨e, rfl⟩, hmay⟩⟩
    rw [settle, Prog.run_request_error (by rw [hc]), hc]
    rfl

/-- What the entries of a run say about batches that have written the `m` people of `D`. -/
structure Entered (t₀ : Tree) (cfg : JobConfig) (batches : List (List PersonId))
    (entries : List BatchEntry) (D : PersonId → Prop) (m lost : Nat) : Prop where
  ways : t₀.Ways cfg.placeholderPassword cfg.maxDepth.toNat D
  length : entries.length = batches.length
  written : (entries.map (·.written)).sum + lost = m
  unreachable : (entries.map (·.unreachable)).sum ≤ outOfReach t₀ cfg batches.flatten
  /-- Where no batch has failed nothing is left out. -/
  clean : (∀ b ∈ entries, b.isFailed = false) → lost = 0 ∧
    (entries.map (·.unreachable)).sum = outOfReach t₀ cfg batches.flatten ∧
    ∀ x, D x ↔ ∃ e ∈ batches.flatten, ∃ a,
      t₀.PassedBy cfg.placeholderPassword cfg.maxDepth.toNat e x a

omit hS in
theorem Entered.settled {batch : List PersonId} {rest : List (List PersonId)}
    {entries : List BatchEntry} {index m₁ m₂ lost : Nat} {D₁ D₂ : PersonId → Prop}
    (hways : t₀.Ways cfg.placeholderPassword cfg.maxDepth.toNat D₁)
    (hD : ∀ x, D₁ x ↔ ∃ e ∈ batch, ∃ a,
      t₀.PassedBy cfg.placeholderPassword cfg.maxDepth.toNat e x a)
    (h : Entered t₀ cfg rest entries D₂ m₂ lost) :
    Entered t₀ cfg (batch :: rest)
      (⟨index, batch.length, .settled m₁ (outOfReach t₀ cfg batch)⟩ :: entries)
      (fun x => D₁ x ∨ D₂ x) (m₁ + m₂) lost where
  ways := hways.or h.ways
  length := congrArg (· + 1) h.length
  written := by
    have hrest := h.written
    simp only [List.map_cons, List.sum_cons, BatchEntry.written] at hrest ⊢
    omega
  unreachable := by
    rw [List.map_cons, List.sum_cons, List.flatten_cons, outOfReach_append]
    exact Nat.add_le_add_left h.unreachable _
  clean hall := by
    obtain ⟨hzero, hsum, hD₂⟩ := h.clean (List.forall_mem_cons.mp hall).2
    refine ⟨hzero, ?_, fun x => ?_⟩
    · rw [List.map_cons, List.sum_cons, hsum, List.flatten_cons, outOfReach_append]
      rfl
    · rw [hD, hD₂, List.flatten_cons]
      simp only [List.mem_append, or_and_right, exists_or]

omit hS in
/-- What a failing batch has written is lost on the report. -/
theorem Entered.failed {batch : List PersonId} {rest : List (List PersonId)}
    {entries : List BatchEntry} {index m₁ m₂ lost : Nat} {first : PersonId} {e : StoreError}
    {D₁ D₂ : PersonId → Prop} (hways : t₀.Ways cfg.placeholderPassword cfg.maxDepth.toNat D₁)
    (h : Entered t₀ cfg rest entries D₂ m₂ lost) :
    Entered t₀ cfg (batch :: rest) (⟨index, batch.length, .failed first e⟩ :: entries)
      (fun x => D₁ x ∨ D₂ x) (m₁ + m₂) (m₁ + lost) where
  ways := hways.or h.ways
  length := congrArg (· + 1) h.length
  written := by
    have hrest := h.written
    simp only [List.map_cons, List.sum_cons, BatchEntry.written] at hrest ⊢
    omega
  unreachable := by
    rw [List.map_cons, List.sum_cons, List.flatten_cons, outOfReach_append]
    exact Nat.add_le_add (Nat.zero_le _) h.unreachable
  clean hall := by cases (List.forall_mem_cons.mp hall).1

/-- Batches are handled one after another, and one that fails does not keep the others from it. -/
theorem run_settleAll (batches : List (List PersonId)) (index : Nat) (done : List BatchEntry)
    (hne : ∀ batch ∈ batches, batch ≠ [])
    (hmem : ∀ e ∈ batches.flatten, (t₀.person? e).isSome ∧
      t₀.stateOf cfg.placeholderPassword e = .empty)
    (h : Underway memory I t₀ cfg.placeholderPassword k D n s) :
    ∃ entries m s' D', (settleAll cfg (t₀.fullIds cfg.placeholderPassword) index batches done).run S
          s = (.ok (done.reverse ++ entries), s') ∧
      Underway memory I t₀ cfg.placeholderPassword k (fun x => D x ∨ D' x) (n + m) s' ∧
      Entered t₀ cfg batches entries D' m (unreported S (fun s => (memory s).usage.nodesWritten) cfg
        (t₀.fullIds cfg.placeholderPassword) batches s) ∧
      ((∀ b ∈ entries, b.isFailed = false) ∨ MayRefuse may) := by
  induction batches generalizing index done s D n with
  | nil =>
    exact ⟨[], 0, s, fun _ => False, by simp [settleAll], h.congr (by simp),
      ⟨.none _ _ _, rfl, rfl, Nat.zero_le _, fun _ => ⟨rfl, rfl, by simp⟩⟩, .inl nofun⟩
  | cons batch rest ih =>
    obtain ⟨r, m₁, s₁, D₁, hrun₁, h₁, hways₁, hr⟩ := run_settle hS batch
      (fun e he => hmem e (List.mem_append_left _ he)) h
    -- The batches behind this one are handled from the store that it leaves, settled or failed.
    have hrest := fun done => ih (index + 1) done
      (fun b hb => hne b (List.mem_cons_of_mem batch hb))
      (fun e he => hmem e (List.mem_append_right _ he)) h₁
    have hboth {m₂ : Nat} {D₂ : PersonId → Prop} {s₂ : σ} (h₂ : Underway memory I t₀
        cfg.placeholderPassword k (fun x => (D x ∨ D₁ x) ∨ D₂ x) (n + m₁ + m₂) s₂) :
        Underway memory I t₀ cfg.placeholderPassword k (fun x => D x ∨ D₁ x ∨ D₂ x)
          (n + (m₁ + m₂)) s₂ := by
      rw [Nat.add_assoc] at h₂
      exact h₂.congr fun x => or_assoc
    rcases hr with ⟨rfl, hD₁⟩ | ⟨⟨e, rfl⟩, hmay⟩
    · obtain ⟨entries, m₂, s₂, D₂, hrun₂, h₂, hent, hfailed⟩ :=
        hrest (⟨index, batch.length, .settled m₁ (outOfReach t₀ cfg batch)⟩ :: done)
      refine ⟨⟨index, batch.length, .settled m₁ (outOfReach t₀ cfg batch)⟩ :: entries, m₁ + m₂, s₂,
        _, ?_, hboth h₂, ?_, hfailed.imp_left (List.forall_mem_cons.mpr ⟨rfl, ·⟩)⟩
      · rw [settleAll, Prog.run_bind_ok hrun₁]
        simpa using hrun₂
      · rw [unreported, hrun₁]
        exact hent.settled hways₁ hD₁
    · obtain ⟨first, others, rfl⟩ := List.exists_cons_of_ne_nil (hne batch List.mem_cons_self)
      obtain ⟨entries, m₂, s₂, D₂, hrun₂, h₂, hent, -⟩ :=
        hrest (⟨index, others.length + 1, .failed first e⟩ :: done)
      refine ⟨⟨index, others.length + 1, .failed first e⟩ :: entries, m₁ + m₂, s₂, _, ?_, hboth h₂,
        ?_, .inr hmay⟩
      · rw [settleAll, Prog.run_bind_ok hrun₁]
        simpa using hrun₂
      · -- What the store has counted since is what this batch has written.
        have hgrowth : (memory s₁).usage.nodesWritten - (memory s).usage.nodesWritten = m₁ := by
          have := h₁.counted
          have := h.counted
          omega
        rw [unreported, hrun₁]
        dsimp only
        rw [hgrowth]
        exact hent.failed hways₁

/-- A run with batches of size zero breaks down before it writes anybody. -/
theorem run_propagation_zero (hb : cfg.batchSize = 0) (hs : I s) :
    ∃ s', (propagation cfg).run S s = (.error (.panic .zeroBatch), s') ∧ I s' ∧
      (memory s').Alike (memory s) := by
  obtain ⟨s₁, hc₁, hs₁, ha₁⟩ := hS.call_emptyIds hs
  obtain ⟨s₂, hc₂, hs₂, ha₂⟩ := hS.call_fullIds hs₁ cfg.placeholderPassword
  refine ⟨s₂, ?_, hs₂, ha₂.trans ha₁⟩
  rw [propagation, Prog.run_request_ok (by rw [hc₁]), hc₁]
  dsimp only
  rw [Prog.run_request_ok (by rw [hc₂]), hc₂]
  dsimp only
  rw [if_pos hb]
  rfl

/-- The two questions that are asked first leave the tree and the count as they are; the report of a run is made
of the entries of its batches. -/
theorem run_propagation_of_settleAll (hb : cfg.batchSize ≠ 0) (hs : I s) :
    ∃ s₂, (S.call (.fullIds cfg.placeholderPassword) (S.call .emptyIds s).2).2 = s₂ ∧ I s₂ ∧
      (memory s₂).Alike (memory s) ∧ ∀ entries s',
        (settleAll cfg ((memory s).tree.fullIds cfg.placeholderPassword) 0
            (batchesOf cfg.batchSize (memory s).tree.emptyIds) []).run S s₂ = (.ok entries, s') →
        (propagation cfg).run S s = (.ok (.ok {
          report := entries.foldl PropagationReport.count
            { emptyNodes := (memory s).tree.emptyIds.length
              terminators := ((memory s).tree.fullIds cfg.placeholderPassword).size }
          batches := entries }), s') := by
  obtain ⟨s₁, hc₁, hs₁, ha₁⟩ := hS.call_emptyIds hs
  obtain ⟨s₂, hc₂, hs₂, ha₂⟩ := hS.call_fullIds hs₁ cfg.placeholderPassword
  rw [ha₁.tree] at hc₂
  refine ⟨s₂, by rw [hc₁, hc₂], hs₂, ha₂.trans ha₁, fun entries s' hrun => ?_⟩
  rw [propagation, Prog.run_request_ok (by rw [hc₁]), hc₁]
  dsimp only
  rw [Prog.run_request_ok (by rw [hc₂]), hc₂]
  dsimp only
  rw [if_neg hb, Prog.run_bind_ok hrun]
  rfl

omit hS in
theorem mem_batchesOf_emptyIds {t : Tree} {e : PersonId}
    (he : e ∈ (batchesOf cfg.batchSize t.emptyIds).flatten) :
    (t.person? e).isSome ∧ t.stateOf cfg.placeholderPassword e = .empty := by
  rw [flatten_batchesOf] at he
  exact (Tree.mem_emptyIds cfg.placeholderPassword).mp he

/-- A run ends well, whichever calls are refused, and its report is the sum of its entries. -/
theorem run_propagation (hb : cfg.batchSize ≠ 0) (hs : I s) :
    ∃ entries m s' D, (propagation cfg).run S s = (.ok (.ok {
        report := entries.foldl PropagationReport.count
          { emptyNodes := (memory s).tree.emptyIds.length
            terminators := ((memory s).tree.fullIds cfg.placeholderPassword).size }
        batches := entries }), s') ∧
      Underway memory I (memory s).tree cfg.placeholderPassword (memory s).usage.nodesWritten D m s' ∧
      Entered (memory s).tree cfg (batchesOf cfg.batchSize (memory s).tree.emptyIds) entries D m
        (unreportedBy S memory cfg s) ∧
      ((∀ b ∈ entries, b.isFailed = false) ∨ MayRefuse may) := by
  obtain ⟨s₂, hlisted, hs₂, ha, hends⟩ := run_propagation_of_settleAll hS hb hs
  have hstart : Underway memory I (memory s).tree cfg.placeholderPassword
      (memory s).usage.nodesWritten (fun _ => False) 0 s :=
    ⟨hs, .start _ _, rfl⟩
  obtain ⟨entries, m, s', D, hrun, hend, hent, hfailed⟩ := run_settleAll hS
    (batchesOf cfg.batchSize (memory s).tree.emptyIds) 0 [] (fun _ => ne_nil_of_mem_batchesOf)
    (fun _ => mem_batchesOf_emptyIds) (hstart.of_alike hs₂ ha)
  refine ⟨entries, m, s', D, hends entries s' hrun, ?_, ?_, hfailed⟩
  · rw [Nat.zero_add] at hend
    exact hend.congr fun x => by rw [false_or]
  · rw [unreportedBy, hlisted]
    exact hent

end Settle

end Runs

end Propagation

end Downline
