import Downline.Proofs.Rekey.Pass

/-! Re-keying a forest until it is settled. Each pass fills in the children of full people, so whoever still
waits stands one edge nearer to the full person above it; after as many passes as the forest is high nobody
waits, and a further run finds nothing to do. -/

namespace Downline

namespace Tree

/-- Nobody below a full person is empty: propagation has done its part. -/
def Primed (t : Tree) (placeholder : String) : Prop :=
  ∀ x k a, t.NearestFull placeholder k x a → t.stateOf placeholder x ≠ .empty

/-- Whoever still waits for a login is at most `n` edges below the full person who has it. -/
def PendingWithin (t : Tree) (placeholder : String) (n : Nat) : Prop :=
  ∀ x k a, t.NearestFull placeholder k x a → t.stateOf placeholder x ≠ .full → k ≤ n

variable {t t' : Tree} {placeholder : String} {x a : PersonId} {n H : Nat}

theorem Primed.password (h : t.Primed placeholder) (ha : t.NearestFull placeholder k x a)
    (hx : t.stateOf placeholder x ≠ .full) : t.passwordOf x = some placeholder :=
  passwordOf_of_states (h x k a ha) hx

theorem Primed.of_contained (h : t.Primed placeholder) (hc : t.Contained t' placeholder) :
    t'.Primed placeholder := by
  intro x k a ha he
  obtain ⟨c, -, hi⟩ := ha.exists_inherits
  obtain ⟨m, b, hb, -⟩ := hc.inherits_before hi
  have hsame : t'.person? x = t.person? x := hc.person?_of_not_full (by rw [he]; exact nofun)
  rw [stateOf_congr hsame] at he
  exact h x m b hb he

/-- Below full people a pass has only holders of the placeholder to fill in. -/
theorem Primed.full_of_parent (h : t.Primed placeholder) (hc : t.Contained t' placeholder)
    (hchild : ∀ x a, t.parentOf x = some a → t.stateOf placeholder a = .full →
      t.passwordOf x = some placeholder → t'.stateOf placeholder x = .full)
    (hx : t.parentOf x = some a) (ha : t.stateOf placeholder a = .full) :
    t'.stateOf placeholder x = .full := by
  by_cases hf : t.stateOf placeholder x = .full
  · exact hc.full_of_full hf
  · exact hchild x a hx ha (h.password (.of_parent hx ha) hf)

theorem HeightAtMost.pendingWithin (h : t.HeightAtMost H) (placeholder : String) :
    t.PendingWithin placeholder H :=
  fun _ _ _ ha _ => h.le ha.reached

theorem PendingWithin.mono {m : Nat} (h : t.PendingWithin placeholder n) (hnm : n ≤ m) :
    t.PendingWithin placeholder m :=
  fun x k a ha hx => Nat.le_trans (h x k a ha hx) hnm

/-- Handing logins down leaves nobody further off. -/
theorem PendingWithin.of_contained (h : t.PendingWithin placeholder n)
    (hc : t.Contained t' placeholder) : t'.PendingWithin placeholder n := by
  intro x k a ha hx
  have hxn : t.stateOf placeholder x ≠ .full := fun hf => hx (hc.full_of_full hf)
  obtain ⟨c, -, hi⟩ := ha.exists_inherits
  obtain ⟨m, b, hb, -⟩ := hc.inherits_before hi
  refine Nat.le_trans (Nat.le_of_not_lt fun hlt => ?_) (h x m b hb hxn)
  have hreach := (ancestor?_congr hc.parentOf m x).trans hb.reached
  exact ha.first m b hb.pos hlt hreach (hc.full_of_full hb.holds)

/-- Where nobody waits, whoever inherits a login is full. -/
theorem PendingWithin.full (h : t.PendingWithin placeholder 0) {k : Nat}
    (ha : t.NearestFull placeholder k x a) : t.stateOf placeholder x = .full := by
  by_contra hx
  have := ha.pos
  have := h x k a ha hx
  omega

/-- When every child of a full person has become full, whoever still waits is one edge nearer. -/
theorem PendingWithin.nearer (h : t.PendingWithin placeholder (n + 1))
    (hc : t.Contained t' placeholder)
    (hchild : ∀ x a, t.parentOf x = some a → t.stateOf placeholder a = .full →
      t'.stateOf placeholder x = .full) : t'.PendingWithin placeholder n := by
  intro x k a ha hx
  have hxn : t.stateOf placeholder x ≠ .full := fun hf => hx (hc.full_of_full hf)
  obtain ⟨c, -, hi⟩ := ha.exists_inherits
  obtain ⟨m, b, hb, -⟩ := hc.inherits_before hi
  have hm : m ≤ n + 1 := h x m b hb hxn
  -- The child of `b` on the way up from `x` is full now.
  obtain ⟨y, hy, hyb⟩ := exists_child_of_ancestor hb.pos hb.reached
  have hyf : t'.stateOf placeholder y = .full := hchild y b hyb hb.holds
  rcases Nat.eq_zero_or_pos (m - 1) with hzero | hpos
  · rw [hzero] at hy
    cases hy
    exact absurd hyf hx
  · rw [← ancestor?_congr hc.parentOf] at hy
    rcases Nat.lt_or_ge (m - 1) k with hlt | hle
    · exact absurd hyf (ha.first (m - 1) y hpos hlt hy)
    · omega

/-- If the children of full people are full, nobody waits. -/
theorem pendingWithin_zero (h : ∀ x a, t.parentOf x = some a → t.stateOf placeholder a = .full →
    t.stateOf placeholder x = .full) : t.PendingWithin placeholder 0 := by
  intro x k a ha hx
  exfalso
  -- The child of `a` on the way up from `x` would be a nearer full person, or `x` itself.
  obtain ⟨y, hy, hya⟩ := exists_child_of_ancestor ha.pos ha.reached
  have hyf := h y a hya ha.holds
  rcases Nat.eq_zero_or_pos (k - 1) with hzero | hpos
  · rw [hzero] at hy
    cases hy
    exact hx hyf
  · exact ha.first (k - 1) y hpos (Nat.sub_one_lt_of_lt ha.pos) hy hyf

namespace Contained

variable (hc : t.Contained t' placeholder)
include hc

theorem wellFormed (hw : t.WellFormed) : t'.WellFormed where
  mirrored p c := by rw [hc.childrenOf, hc.parentOf]; exact hw.mirrored p c
  once p := by rw [hc.childrenOf]; exact hw.once p
  people id hid := by
    rw [hc.relations] at hid
    rw [hc.isSome_person?]
    exact hw.people id hid
  acyclic k x hk := by rw [ancestor?_congr hc.parentOf]; exact hw.acyclic k x hk

theorem heightAtMost (hH : t.HeightAtMost H) : t'.HeightAtMost H := fun x => by
  rw [ancestor?_congr hc.parentOf]
  exact hH x

/-- If no login has changed, nobody has. -/
theorem person?_of_loginChanges (h : (t.loginChanges t').length = 0) (x : PersonId) :
    t'.person? x = t.person? x := by
  rcases hc.people x with he | ht
  · exact he
  · have hm := mem_loginChanges.mpr (hc.loginChanged_iff.mpr ⟨ht.not_full, ht.full⟩)
    rw [List.length_eq_zero_iff.mp h] at hm
    cases hm

/-- Where nobody waits, no login can change. -/
theorem loginChanges_of_settled (h : t.PendingWithin placeholder 0) :
    (t.loginChanges t').length = 0 := by
  refine length_loginChanges List.nodup_nil fun x => ?_
  rw [hc.loginChanged_iff]
  refine iff_of_false (by simp) ?_
  intro hh
  obtain ⟨hn, hf⟩ := hh
  obtain ⟨r, c, -, -, ⟨k, a, ha, -⟩, -⟩ := hc.taken_over hn hf
  exact hn (h.full ha)

end Contained

end Tree

/-! ### One pass -/

section Pass

variable {cfg : JobConfig} {s s' : MemoryStore} {H : Nat} (hlimit : cfg.maxInFlight ≤ maxPermits)
  (hfail : ∀ x, x ∉ s.failing)

/-- What a pass over forest candidates has done when it is over. -/
structure PassDone (cfg : JobConfig) (candidates : List ChainCandidate) (s s' : MemoryStore)
    (p : RekeyPass) : Prop where
  failing : s'.failing = s.failing
  contained : s.tree.Contained s'.tree cfg.placeholderPassword
  top : s.tree.FilledFromTop s'.tree cfg.placeholderPassword
  nodesWritten : p.report.nodesWritten = (s.tree.loginChanges s'.tree).length
  counted : p.report.candidates = candidates.length
  full : ∀ d ∈ candidates, ∀ k x, s.tree.OpenChain cfg.placeholderPassword d.start d.last k →
    k ≤ cfg.maxDepth.toNat → s.tree.ancestor? (k - 1) d.last = some x →
      s'.tree.stateOf cfg.placeholderPassword x = .full

include hlimit hfail

theorem done_of_dispatched {candidates : List ChainCandidate}
    (hstarts : ∀ c ∈ candidates, s.tree.stateOf cfg.placeholderPassword c.start = .full)
    {r : Except Halt RekeyPass} (h : Dispatched MemoryStore.store cfg candidates s (r, s')) :
    ∃ p, r = .ok p ∧ PassDone cfg candidates s s' p := by
  obtain ⟨p, p', moves, hp, hm, ho, rfl⟩ := h.exists_schedule hlimit
  obtain ⟨hinv, hfailing⟩ := passInv_of_replay hfail hstarts hp hm
  have hcount : p'.candidates = candidates.length :=
    (Pool.candidates_of_replay hm).trans (Pool.candidates_of_start hp)
  refine ⟨_, Pool.outcome_of_unbroken ho hinv.unbroken, hfailing, hinv.contained, hinv.top, ?_,
    (Pool.candidates_report _).trans hcount, ?_⟩
  · rw [hinv.written]
    exact Pool.nodesWritten_report ho
  · intro d hd k x hopen hk hx
    exact full_of_candidate hfail hstarts hp hm ho hd hopen hk hx

variable (hw : s.tree.WellFormed) (hH : s.tree.HeightAtMost H) (hd : H ≤ cfg.maxDepth.toNat)
include hw hH hd

/-- A pass over what discovery finds, in any order, fills in every child of a full person that holds the
placeholder. -/
theorem done_of_discovered {found candidates : List ChainCandidate} {r : Except Halt RekeyPass}
    (hfound : s.tree.rekeyCandidates cfg.placeholderPassword cfg.maxDepth = .ok found)
    (hperm : candidates.Perm found)
    (h : Dispatched MemoryStore.store cfg candidates s (r, s')) :
    ∃ p, r = .ok p ∧ PassDone cfg candidates s s' p ∧
      ∀ x a, s.tree.parentOf x = some a → s.tree.stateOf cfg.placeholderPassword a = .full →
        s.tree.passwordOf x = some cfg.placeholderPassword →
          s'.tree.stateOf cfg.placeholderPassword x = .full := by
  have hstarts : ∀ c ∈ candidates, s.tree.stateOf cfg.placeholderPassword c.start = .full :=
    fun c hm => (hw.of_mem_rekeyCandidates hfound (hperm.subset hm)).1
  obtain ⟨p, rfl, hdone⟩ := done_of_dispatched hlimit hfail hstarts h
  refine ⟨p, rfl, hdone, fun x a hx ha hp => ?_⟩
  obtain ⟨last, k, hm, hk, hopen, hxk⟩ := hw.exists_candidate hH hd hfound hx ha hp
  exact hdone.full ⟨a, last⟩ (hperm.symm.subset hm) k x hopen hk hxk

theorem Rekey.done_of_passed {r : Except Halt (Except StoreError RekeyPass)}
    (h : Rekey.Passed MemoryStore.store cfg s (r, s')) :
    ∃ candidates p, r = .ok (.ok p) ∧ PassDone cfg candidates s s' p ∧
      s.tree.rekeyCandidates cfg.placeholderPassword cfg.maxDepth = .ok candidates ∧
      ∀ x a, s.tree.parentOf x = some a → s.tree.stateOf cfg.placeholderPassword a = .full →
        s.tree.passwordOf x = some cfg.placeholderPassword →
          s'.tree.stateOf cfg.placeholderPassword x = .full := by
  obtain ⟨candidates, hcandidates⟩ := hw.exists_rekeyCandidates hH hd cfg.placeholderPassword
  have hcall := MemoryStore.call_rekeyCandidates hcandidates
  cases h with
  | undiscovered hc | halted hc =>
    rw [hc] at hcall
    cases hcall
  | dispatched hc hdisp =>
    rw [hc] at hcall
    cases hcall
    -- Discovery has left the tree and the failing ids alone.
    have htree := MemoryStore.tree_of_discovery hc
    have hfailing := MemoryStore.failing_of_discovery hc
    obtain ⟨p, rfl, hdone, hchild⟩ := done_of_discovered hlimit (by rwa [hfailing]) (by rwa [htree])
      (by rwa [htree]) hd (by rw [htree]; exact hcandidates) (.refl _) hdisp
    rw [htree] at hchild
    exact ⟨candidates, p, rfl, ⟨hdone.failing.trans hfailing, htree ▸ hdone.contained,
      htree ▸ hdone.top, htree ▸ hdone.nodesWritten, hdone.counted, htree ▸ hdone.full⟩,
      hcandidates, hchild⟩

end Pass

/-! ### Repeated passes -/

namespace Rekey

variable {cfg : JobConfig} {s : MemoryStore} {H n : Nat} {total : RekeyReport}
  {settled : List Settled} {out : Except Halt RekeyRun × MemoryStore}

/-- A run with as many passes as edges that someone waits below a full person leaves nobody waiting. -/
theorem settled_of_repeated (hlimit : cfg.maxInFlight ≤ maxPermits) (hfail : ∀ x, x ∉ s.failing)
    (ht : s.tree.Primed cfg.placeholderPassword) (hw : s.tree.WellFormed)
    (hH : s.tree.HeightAtMost H) (hd : H ≤ cfg.maxDepth.toNat)
    (hpend : s.tree.PendingWithin cfg.placeholderPassword n)
    (h : Repeated MemoryStore.store cfg n total settled s out) :
    ∃ run report, out.1 = .ok run ∧ run.result = .ok report ∧ out.2.failing = s.failing ∧
      s.tree.Contained out.2.tree cfg.placeholderPassword ∧
      out.2.tree.PendingWithin cfg.placeholderPassword 0 := by
  induction h with
  | spent => exact ⟨_, _, rfl, rfl, rfl, .refl _ _, hpend⟩
  | halted hp | failed hp =>
    obtain ⟨_, _, hr, -⟩ := done_of_passed hlimit hfail hw hH hd hp
    cases hr
  | converged hp hz =>
    obtain ⟨_, _, hr, hdone, -, hchild⟩ := done_of_passed hlimit hfail hw hH hd hp
    cases hr
    refine ⟨_, _, rfl, rfl, hdone.failing, hdone.contained, ?_⟩
    -- Nothing was written, so the children of full people were full before.
    have hsame := hdone.contained.person?_of_loginChanges (hdone.nodesWritten.symm.trans hz)
    refine Tree.PendingWithin.of_contained (Tree.pendingWithin_zero fun x a hx ha => ?_)
      hdone.contained
    exact (Tree.stateOf_congr (hsame x)).symm.trans
      (ht.full_of_parent hdone.contained hchild hx ha)
  | again hp hz hrest ih =>
    obtain ⟨_, _, hr, hdone, -, hchild⟩ := done_of_passed hlimit hfail hw hH hd hp
    cases hr
    obtain ⟨run, report, hrun, hreport, hfailing, hc, hsettled⟩ :=
      ih (by rwa [hdone.failing]) (ht.of_contained hdone.contained)
        (hdone.contained.wellFormed hw) (hdone.contained.heightAtMost hH)
        (hpend.nearer hdone.contained fun _ _ => ht.full_of_parent hdone.contained hchild)
    exact ⟨run, report, hrun, hreport, hfailing.trans hdone.failing, hdone.contained.trans hc,
      hsettled⟩

/-- Where nobody waits, a run finds no candidate and writes nothing. -/
theorem idle_of_repeated (hlimit : cfg.maxInFlight ≤ maxPermits) (hfail : ∀ x, x ∉ s.failing)
    (hw : s.tree.WellFormed) (hH : s.tree.HeightAtMost H) (hd : H ≤ cfg.maxDepth.toNat)
    (hpend : s.tree.PendingWithin cfg.placeholderPassword 0)
    (h : Repeated MemoryStore.store cfg n total settled s out) :
    ∃ run report, out.1 = .ok run ∧ run.result = .ok report ∧
      report.nodesWritten = total.nodesWritten ∧ report.candidates = total.candidates := by
  have hidle {s' : MemoryStore} {p : RekeyPass}
      (hp : Passed MemoryStore.store cfg s (.ok (.ok p), s')) :
      p.report.nodesWritten = 0 ∧ p.report.candidates = 0 := by
    obtain ⟨candidates, _, hr, hdone, hcandidates, -⟩ :=
      done_of_passed hlimit hfail hw hH hd hp
    cases hr
    have hnone : candidates = [] := (hw.rekeyCandidates_eq_nil_iff hH hd hcandidates).mpr
      fun x a hx ha hpw => Tree.not_full_of_password hpw (hpend.full (.of_parent hx ha))
    exact ⟨hdone.nodesWritten.trans (hdone.contained.loginChanges_of_settled hpend),
      by rw [hdone.counted, hnone, List.length_nil]⟩
  cases h with
  | spent => exact ⟨_, _, rfl, rfl, rfl, rfl⟩
  | halted hp | failed hp =>
    obtain ⟨_, _, hr, -⟩ := done_of_passed hlimit hfail hw hH hd hp
    cases hr
  | converged hp hz =>
    obtain ⟨hn, hcand⟩ := hidle hp
    exact ⟨_, _, rfl, rfl, congrArg (total.nodesWritten + ·) hn,
      congrArg (total.candidates + ·) hcand⟩
  | again hp hz => exact absurd (hidle hp).1 hz

end Rekey

end Downline
