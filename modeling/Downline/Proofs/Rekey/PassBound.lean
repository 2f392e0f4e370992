import Downline.Proofs.Rekey.Convergence

/-! How many passes re-keying needs. Each pass fills in all holders of the placeholder right below full
people, and whoever it fills further down stands below one of these; so what is open after it lies one edge
deeper, and a forest is settled in one pass more than it is high. Nothing is asked of the empty people. -/

namespace Downline

namespace Tree

/-- Every holder of the placeholder right below a full person has at least `n` edges above it. -/
def OpenBelow (t : Tree) (placeholder : String) (n : Nat) : Prop :=
  ∀ x a, t.parentOf x = some a → t.stateOf placeholder a = .full →
    t.passwordOf x = some placeholder → (t.ancestor? n x).isSome

/-- No holder of the placeholder stands below a full person with nobody but holders in between. -/
def NothingOpen (t : Tree) (placeholder : String) : Prop :=
  ∀ x k a, 0 < k → t.ancestor? k x = some a → t.stateOf placeholder a = .full →
    ¬ ∀ j y, j < k → t.ancestor? j x = some y → t.passwordOf y = some placeholder

variable {t t' : Tree} {placeholder : String} {n : Nat}

theorem openBelow_one (t : Tree) (placeholder : String) : t.OpenBelow placeholder 1 := by
  intro x a hx _ _
  rw [ancestor?_one, hx, Option.isSome_some]

/-- A pass that fills in the children of full people, and everyone else below them, leaves only what lies
deeper. -/
theorem OpenBelow.deeper (h : t.OpenBelow placeholder n) (hc : t.Contained t' placeholder)
    (htop : t.FilledFromTop t' placeholder)
    (hchild : ∀ x a, t.parentOf x = some a → t.stateOf placeholder a = .full →
      t.passwordOf x = some placeholder → t'.stateOf placeholder x = .full) :
    t'.OpenBelow placeholder (n + 1) := by
  intro x a hx ha hp
  rw [hc.parentOf] at hx
  by_cases hf : t.stateOf placeholder a = .full
  · exact absurd (hchild x a hx hf (hc.passwordOf_before hp)) (not_full_of_password hp)
  · -- The chain that has made `a` full had its topmost member right below a full person.
    obtain ⟨k, b, hopen, -⟩ := htop a hf ha
    obtain ⟨y, hy, hyb, hyp⟩ := hopen.exists_top
    obtain ⟨z, hz⟩ := Option.isSome_iff_exists.mp (h y b hyb hopen.full hyp)
    have hxz : t.ancestor? (k - 1 + n + 1) x = some z := by
      rw [ancestor?_of_parent hx, ancestor?_add, hy, Option.bind_some, hz]
    obtain ⟨w, hw⟩ := ancestor?_of_le (j := n + 1) hxz (by omega)
    rw [ancestor?_congr hc.parentOf, hw, Option.isSome_some]

/-- It is enough to look at the children of full people. -/
theorem nothingOpen_iff : t.NothingOpen placeholder ↔ ∀ x a, t.parentOf x = some a →
    t.stateOf placeholder a = .full → t.passwordOf x ≠ some placeholder := by
  constructor
  · intro h x a hx ha hp
    refine h x 1 a Nat.one_pos ((ancestor?_one x).trans hx) ha fun j y hj hy => ?_
    obtain rfl : j = 0 := by omega
    cases hy
    exact hp
  · intro h x k a hk ha hf hway
    obtain ⟨y, hy, hya⟩ := exists_child_of_ancestor hk ha
    exact h y a hya hf (hway (k - 1) y (Nat.sub_one_lt_of_lt hk) hy)

/-- Where nothing is open, nobody is filled in from the top. -/
theorem NothingOpen.loginChanges (h : t.NothingOpen placeholder) (hc : t.Contained t' placeholder)
    (htop : t.FilledFromTop t' placeholder) : (t.loginChanges t').length = 0 := by
  refine length_loginChanges List.nodup_nil fun x => ?_
  rw [hc.loginChanged_iff]
  refine iff_of_false (by simp) ?_
  rintro ⟨hn, hf⟩
  -- Whoever becomes full ends an open chain, which has a topmost member.
  obtain ⟨k, a, hopen, -⟩ := htop x hn hf
  obtain ⟨y, -, hya, hyp⟩ := hopen.exists_top
  exact nothingOpen_iff.mp h y a hya hopen.full hyp

theorem NothingOpen.of_unchanged (h : t.NothingOpen placeholder) (hc : t.Contained t' placeholder)
    (hsame : (t.loginChanges t').length = 0) : t'.NothingOpen placeholder := by
  rw [nothingOpen_iff] at h ⊢
  intro x a hx ha
  have hperson := hc.person?_of_loginChanges hsame
  rw [hc.parentOf] at hx
  rw [stateOf_congr (hperson a)] at ha
  rw [passwordOf_congr (hperson x)]
  exact h x a hx ha

end Tree

namespace Rekey

open MemoryStore (store)

section Forest

variable {cfg : JobConfig} {s s' : MemoryStore} {H : Nat} (hlimit : cfg.maxInFlight ≤ maxPermits)
  (hfail : ∀ x, x ∉ s.failing) (hw : s.tree.WellFormed) (hH : s.tree.HeightAtMost H)
  (hd : H ≤ cfg.maxDepth.toNat)
include hlimit hfail hw hH hd

/-- A pass ends well, and it writes somebody, and has a candidate, exactly if something is open. -/
theorem writes_iff_of_passed {r : Except Halt (Except StoreError RekeyPass)}
    (h : Passed store cfg s (r, s')) : ∃ p, r = .ok (.ok p) ∧
      s.tree.Contained s'.tree cfg.placeholderPassword ∧
      p.report.nodesWritten = (s.tree.loginChanges s'.tree).length ∧
      (p.report.nodesWritten = 0 ↔ s.tree.NothingOpen cfg.placeholderPassword) ∧
      (p.report.candidates = 0 ↔ s.tree.NothingOpen cfg.placeholderPassword) := by
  obtain ⟨candidates, p, rfl, hdone, hcandidates, hchild⟩ := done_of_passed hlimit hfail hw hH hd h
  refine ⟨p, rfl, hdone.contained, hdone.nodesWritten, ?_, ?_⟩
  · rw [hdone.nodesWritten]
    refine ⟨fun hzero => ?_, fun hnone => hnone.loginChanges hdone.contained hdone.top⟩
    rw [Tree.nothingOpen_iff]
    intro x a hx ha hp
    have hsame := hdone.contained.person?_of_loginChanges hzero x
    exact Tree.not_full_of_password hp
      ((Tree.stateOf_congr hsame).symm.trans (hchild x a hx ha hp))
  · -- Discovery finds a candidate exactly if a child of a full person holds the placeholder.
    rw [hdone.counted, List.length_eq_zero_iff, Tree.nothingOpen_iff]
    exact hw.rekeyCandidates_eq_nil_iff hH hd hcandidates

/-- Passes that write keep a forest of its height, and what is open after them lies as much deeper. -/
theorem openBelow_of_onward {i n : Nat} (h : Onward store cfg i s s')
    (hopen : s.tree.OpenBelow cfg.placeholderPassword n) :
    (∀ x, x ∉ s'.failing) ∧ s.tree.Contained s'.tree cfg.placeholderPassword ∧
      s'.tree.OpenBelow cfg.placeholderPassword (n + i) := by
  induction h generalizing n with
  | start => exact ⟨hfail, .refl _ _, hopen⟩
  | @pass i s s₁ s₂ p hp hz _ ih =>
    obtain ⟨_, _, hr, hdone, -, hchild⟩ := done_of_passed hlimit hfail hw hH hd hp
    cases hr
    have hdeeper := hopen.deeper hdone.contained hdone.top hchild
    obtain ⟨hfail', hc, hopen'⟩ := ih (by rwa [hdone.failing]) (hdone.contained.wellFormed hw)
      (hdone.contained.heightAtMost hH) hdeeper
    rw [show n + 1 + i = n + (i + 1) by omega] at hopen'
    exact ⟨hfail', hdone.contained.trans hc, hopen'⟩

/-- A further pass after some that have written is again one over a forest. -/
theorem next_of_onward {i : Nat} {s₁ : MemoryStore} (h : Onward store cfg i s s₁)
    {r : Except Halt (Except StoreError RekeyPass)} (hp : Passed store cfg s₁ (r, s')) :
    ∃ p, r = .ok (.ok p) ∧ s.tree.Contained s₁.tree cfg.placeholderPassword ∧
      s₁.tree.Contained s'.tree cfg.placeholderPassword ∧
      p.report.nodesWritten = (s₁.tree.loginChanges s'.tree).length ∧
      (p.report.nodesWritten = 0 ↔ s₁.tree.NothingOpen cfg.placeholderPassword) ∧
      (p.report.candidates = 0 ↔ s₁.tree.NothingOpen cfg.placeholderPassword) := by
  obtain ⟨hfail₁, hc, -⟩ := openBelow_of_onward hlimit hfail hw hH hd h
    (s.tree.openBelow_one cfg.placeholderPassword)
  obtain ⟨p, hr, hspec⟩ :=
    writes_iff_of_passed hlimit hfail₁ (hc.wellFormed hw) (hc.heightAtMost hH) hd hp
  exact ⟨p, hr, hc, hspec⟩

/-- After as many writing passes as a forest is high nothing is open. -/
theorem nothingOpen_of_onward {i : Nat} (h : Onward store cfg i s s') (hi : H ≤ i) :
    s'.tree.NothingOpen cfg.placeholderPassword := by
  obtain ⟨-, hc, hopen⟩ := openBelow_of_onward hlimit hfail hw hH hd h
    (s.tree.openBelow_one cfg.placeholderPassword)
  rw [Tree.nothingOpen_iff]
  intro x a hx ha hp
  obtain ⟨z, hz⟩ := Option.isSome_iff_exists.mp (hopen x a hx ha hp)
  have := (hc.heightAtMost hH).le hz
  omega

/-- There are no more writing passes than a forest is high. -/
theorem le_height_of_onward {i : Nat} (h : Onward store cfg i s s') : i ≤ H := by
  cases i with
  | zero => exact Nat.zero_le H
  | succ i =>
    by_contra hi
    -- Before the last of `H + 1` passes or more nothing would be open, yet that pass has written somebody.
    obtain ⟨s₁, p, hon, hlast, hz⟩ := h.exists_last
    obtain ⟨_, hr, -, -, -, hwrites, -⟩ := next_of_onward hlimit hfail hw hH hd hon hlast
    cases hr
    exact hz (hwrites.mpr (nothingOpen_of_onward hlimit hfail hw hH hd hon (by omega)))

/-- A run with one pass more than a forest is high stops at a pass that finds nothing open. -/
theorem stops_within_height {n : Nat} (hpasses : H < n) {settled : List Settled}
    {out : Except Halt RekeyRun × MemoryStore} (h : Repeated store cfg n {} settled s out) :
    ∃ run report i s₁ p, out.1 = .ok run ∧ run.result = .ok report ∧ report.passes = i + 1 ∧
      i ≤ H ∧ Onward store cfg i s s₁ ∧ Passed store cfg s₁ (.ok (.ok p), out.2) ∧
      p.report.candidates = 0 ∧ s.tree.Contained out.2.tree cfg.placeholderPassword ∧
      out.2.tree.NothingOpen cfg.placeholderPassword := by
  obtain ⟨r, s'⟩ := out
  obtain ⟨run, report, rfl, hreport⟩ := h.exists_report fun i s₁ r s₂ hon hp => by
    obtain ⟨p, hr, -⟩ := next_of_onward hlimit hfail hw hH hd hon hp
    exact ⟨p, hr⟩
  rcases h.last_pass hreport with ⟨hon, -⟩ | ⟨i, s₁, p, -, hon, hp, hz, hcount⟩
  · -- There are not as many writing passes as the run may make.
    have := le_height_of_onward hlimit hfail hw hH hd hon
    omega
  · obtain ⟨_, hr, hc, hc', hwritten, hwrites, hcandidates⟩ :=
      next_of_onward hlimit hfail hw hH hd hon hp
    cases hr
    have hnone := hwrites.mp hz
    exact ⟨run, report, i, s₁, p, rfl, hreport, hcount.trans (Nat.zero_add _),
      le_height_of_onward hlimit hfail hw hH hd hon, hon, hp, hcandidates.mpr hnone,
      hc.trans hc', hnone.of_unchanged hc' (hwritten.symm.trans hz)⟩

end Forest

end Rekey

open MemoryStore (store)
open Rekey (Onward Passed Repeated untilConverged)

/-- Re-keying a forest that is no higher than the depth bound, when no call fails: by every schedule, each
pass of a run that has a candidate writes somebody, and a run that may make one pass more than the forest
is high ends with a pass that has no candidate. Then discovery finds none, and no chain of placeholder
holders leads up to a full person. The job's own run is among these. -/
theorem rekeying_settles_within_height {cfg : JobConfig} (hn : cfg.maxInFlight ≠ 0)
    (hlimit : cfg.maxInFlight ≤ maxPermits) {s : MemoryStore} (hfail : ∀ x, x ∉ s.failing)
    (hw : s.tree.WellFormed) {H : Nat} (hH : s.tree.HeightAtMost H)
    (hd : H ≤ cfg.maxDepth.toNat) :
    (∀ i s₁ r s₂, Onward store cfg i s s₁ → Passed store cfg s₁ (r, s₂) →
      ∃ p, r = .ok (.ok p) ∧ p.report.nodesWritten = (s₁.tree.loginChanges s₂.tree).length ∧
        (p.report.candidates ≠ 0 → p.report.nodesWritten ≠ 0)) ∧
      ∀ m, H + 1 ≤ m → Repeated store cfg (max 1 m) {} [] s (untilConverged store cfg m s) ∧
        ∀ out, Repeated store cfg (max 1 m) {} [] s out →
          ∃ run report, out.1 = .ok run ∧ run.result = .ok report ∧ report.passes ≤ H + 1 ∧
            (∃ i s₁ p, report.passes = i + 1 ∧ Onward store cfg i s s₁ ∧
              Passed store cfg s₁ (.ok (.ok p), out.2) ∧ p.report.candidates = 0) ∧
            (store.call (.rekeyCandidates cfg.placeholderPassword cfg.maxDepth) out.2).1 = .ok [] ∧
            out.2.tree.NothingOpen cfg.placeholderPassword := by
  refine ⟨fun i s₁ r s₂ hon hp => ?_, fun m hm => ⟨Rekey.repeated_passes hn _ _ _ s, fun out h => ?_⟩⟩
  · obtain ⟨p, hr, -, -, hwritten, hwrites, hcandidates⟩ :=
      Rekey.next_of_onward hlimit hfail hw hH hd hon hp
    exact ⟨p, hr, hwritten, mt fun hz => hcandidates.mpr (hwrites.mp hz)⟩
  · obtain ⟨run, report, i, s₁, p, hrun, hreport, hcount, hi, hon, hp, hzero, hc, hnone⟩ :=
      Rekey.stops_within_height hlimit hfail hw hH hd (Nat.lt_of_lt_of_le hm (Nat.le_max_right 1 m)) h
    refine ⟨run, report, hrun, hreport, by omega, ⟨i, s₁, p, hcount, hon, hp, hzero⟩, ?_, hnone⟩
    -- The forest is as it was but for its logins, so discovery ends well and finds nothing.
    have hw' := hc.wellFormed hw
    have hH' := hc.heightAtMost hH
    obtain ⟨candidates, hcandidates⟩ := hw'.exists_rekeyCandidates hH' hd cfg.placeholderPassword
    cases (hw'.rekeyCandidates_eq_nil_iff hH' hd hcandidates).mpr (Tree.nothingOpen_iff.mp hnone)
    exact MemoryStore.call_rekeyCandidates hcandidates

/-- Two holders of the placeholder stand one below the other, and three passes are enough for them. -/
theorem rekeying_settles_household :
    Tree.household.WellFormed ∧ Tree.household.HeightAtMost 2 ∧
      ¬ Tree.household.NothingOpen "changeme" ∧
      ∃ run report, (untilConverged store { placeholderPassword := "changeme", maxDepth := 2 } 3
          { tree := .household }).1 = .ok run ∧ run.result = .ok report ∧ report.passes ≤ 3 ∧
        (untilConverged store { placeholderPassword := "changeme", maxDepth := 2 } 3
          { tree := .household }).2.tree.NothingOpen "changeme" := by
  have hone : ({ placeholderPassword := "changeme", maxDepth := 2 } : JobConfig).maxInFlight ≠ 0 := by
    decide
  obtain ⟨-, hall⟩ := rekeying_settles_within_height hone (by decide) (s := { tree := .household })
    (fun x => Std.TreeSet.not_mem_emptyc) Tree.wellFormed_household Tree.heightAtMost_household
    (by decide)
  obtain ⟨hown, hstops⟩ := hall 3 (Nat.le_refl 3)
  obtain ⟨run, report, hrun, hreport, hpasses, -, -, hnone⟩ := hstops _ hown
  refine ⟨Tree.wellFormed_household, Tree.heightAtMost_household, fun h => ?_, run, report, hrun,
    hreport, hpasses, hnone⟩
  exact Tree.nothingOpen_iff.mp h ⟨"b"⟩ ⟨"root"⟩ (by decide +kernel) (by decide +kernel)
    (by decide +kernel)

end Downline
