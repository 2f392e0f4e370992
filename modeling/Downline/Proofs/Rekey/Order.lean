import Downline.Proofs.Rekey.PassBound
import Downline.Proofs.Rekey.Uncontested
import Downline.Proofs.Rekey.Views

/-! Re-keying with the candidates of each pass in any order. Holders of the placeholder below full people are
filled in sooner or later, but an empty person at the end of chains that part above it is only if its own
chain comes first: otherwise it stands right below a full person at the next discovery, which passes over it.
So runs that differ in the order of their tasks differ at most in such people and in those below them. -/

namespace Downline

/-- The same store, but discovery lists its candidates in another order, and so a pass starts its tasks in
that order. -/
def Store.reordered {σ : Type} (S : Store σ)
    (order : σ → List ChainCandidate → List ChainCandidate) : Store σ where
  enter := S.enter
  finish
    | .rekeyCandidates placeholder maxDepth, t, s =>
      let (answer, s') := S.finish (.rekeyCandidates placeholder maxDepth) t s
      (answer.map (order s), s')
    | c, t, s => S.finish c t s
  now := S.now

section Reordered

variable {σ : Type} {S : Store σ} {order : σ → List ChainCandidate → List ChainCandidate}

theorem Store.reordered_id (S : Store σ) : (S.reordered fun _ l => l) = S := by
  have hfinish : (S.reordered fun _ l => l).finish = S.finish := by
    funext c t s
    cases c with
    | rekeyCandidates placeholder maxDepth =>
      change ((S.finish (.rekeyCandidates placeholder maxDepth) t s).1.map id,
        (S.finish (.rekeyCandidates placeholder maxDepth) t s).2) = _
      rw [Except.map_id]
      rfl
    | person | relations | emptyIds | fullIds | upwardPaths | downwardPath | setCredentials
      | credentialCensus => rfl
  exact congrArg (fun finish => { S with finish }) hfinish

/-- Apart from discovery nothing has changed. -/
theorem Store.viewedAs_reordered (S : Store σ)
    (order : σ → List ChainCandidate → List ChainCandidate) :
    S.ViewedAs (S.reordered order) id (·.operation ≠ .rekeyCandidates) fun _ => True where
  keeps := ⟨fun _ _ => trivial, fun _ _ => trivial⟩
  enter _ _ := rfl
  finish {c t s} hc _ := by
    cases c with
    | rekeyCandidates => exact absurd rfl hc
    | person | relations | emptyIds | fullIds | upwardPaths | downwardPath | setCredentials
      | credentialCensus => rfl

/-- No task asks for candidates. -/
theorem TaskSettings.asks_no_candidates (settings : TaskSettings) :
    settings.Asks (·.operation ≠ .rekeyCandidates) fun _ => True where
  start := trivial
  call {phase c r} _ hr := by
    cases phase with
    | ended => cases hr
    | verify | commit | absorb =>
      cases hr
      exact nofun
  next _ _ _ := trivial

theorem dispatched_of_reordered {cfg : JobConfig} {candidates : List ChainCandidate} {s s' : σ}
    {r : Except Halt RekeyPass} (h : Dispatched (S.reordered order) cfg candidates s (r, s')) :
    Dispatched S cfg candidates s (r, s') := by
  obtain ⟨s'', hd, rfl, -⟩ := exists_dispatched_of_view (S.viewedAs_reordered order)
    (TaskSettings.asks_no_candidates _) trivial h
  exact hd

end Reordered

open MemoryStore (store)

theorem MemoryStore.call_reordered (order : MemoryStore → List ChainCandidate → List ChainCandidate)
    {placeholder : String} {maxDepth : UInt32} {s : MemoryStore} {found : List ChainCandidate}
    (h : s.tree.rekeyCandidates placeholder maxDepth = .ok found) :
    (store.reordered order).call (.rekeyCandidates placeholder maxDepth) s =
      (.ok (order s.arrive found), s.arrive.leave) := by
  have harrive : s.arrive.tree.rekeyCandidates placeholder maxDepth = .ok found := h
  have hcall : (store.reordered order).call (.rekeyCandidates placeholder maxDepth) s =
      ((s.arrive.perform (.rekeyCandidates placeholder maxDepth)).1.map (order s.arrive),
        (s.arrive.perform (.rekeyCandidates placeholder maxDepth)).2.leave) := rfl
  rw [hcall, perform, harrive]
  rfl

namespace Tree

/-- From `t₀` re-keying has come to `t`: logins have been handed down from parent to child, by way of people
who held the placeholder, and no end that is not contested has been left behind. -/
structure Settling (t₀ t : Tree) (placeholder : String) : Prop where
  contained : t₀.Contained t placeholder
  parent : ∀ x, t₀.stateOf placeholder x ≠ .full → t.stateOf placeholder x = .full →
    ∃ p, t₀.parentOf x = some p ∧ t.stateOf placeholder p = .full ∧
      (t₀.passwordOf x = some placeholder ∨ t₀.passwordOf p = some placeholder)
  uncontested : ∀ x p, t₀.parentOf x = some p → t₀.passwordOf p = some placeholder →
    t.stateOf placeholder p = .full → t₀.passwordOf x ≠ some placeholder →
      ¬ t₀.Contested placeholder x → t.stateOf placeholder x = .full

variable {t₀ t t' : Tree} {placeholder : String} {x y : PersonId} {n : Nat}

/-- Re-keying brings up no new contest. -/
theorem Contested.before (hc : t₀.Contained t placeholder) (h : t.Contested placeholder x) :
    t₀.Contested placeholder x := by
  obtain ⟨i, z, hi, hz, hlength, hall⟩ := h
  rw [ancestor?_congr hc.parentOf] at hz
  rw [hc.childrenOf] at hlength
  refine ⟨i, z, hi, hz, hlength, fun j w hj hji hw => ?_⟩
  rw [← ancestor?_congr hc.parentOf] at hw
  exact hc.passwordOf_before (hall j w hj hji hw)

namespace Settling

theorem refl (t : Tree) (placeholder : String) : t.Settling t placeholder where
  contained := .refl t placeholder
  parent _ hn hf := absurd hf hn
  uncontested _ _ _ hp hf := absurd hf (not_full_of_password hp)

/-- A pass that fills people in from the top, and the ends of lone chains as well, settles further. -/
theorem pass (h : t₀.Settling t placeholder) (hw : t.WellFormed)
    (hc : t.Contained t' placeholder) (htop : t.FilledFromTop t' placeholder)
    (hlone : ∀ a y k, t.LoneChain placeholder a y k → t'.stateOf placeholder y = .full) :
    t₀.Settling t' placeholder where
  contained := h.contained.trans hc
  parent x hn hf := by
    by_cases hx : t.stateOf placeholder x = .full
    · obtain ⟨p, hp, hpf, hpassword⟩ := h.parent x hn hx
      exact ⟨p, hp, hc.full_of_full hpf, hpassword⟩
    · -- The person above on the chain is its full start, or another holder that has become full.
      obtain ⟨k, a, hopen, hall⟩ := htop x hx hf
      rcases Nat.lt_or_eq_of_le hopen.first.pos with hk | rfl
      · obtain ⟨p, hp⟩ := ancestor?_of_le hopen.first.reached (Nat.le_of_lt hk)
        have hpassword := h.contained.passwordOf_before (hopen.interior 1 p Nat.one_pos hk hp)
        have hparent : t₀.parentOf x = some p := by
          rw [← h.contained.parentOf, ← ancestor?_one, hp]
        exact ⟨p, hparent, hall 1 p hk hp, .inr hpassword⟩
      · have hpassword := hopen.some_target.resolve_left (Nat.lt_irrefl 1)
        have hparent : t₀.parentOf x = some a := by
          rw [← h.contained.parentOf, ← ancestor?_one, hopen.first.reached]
        exact ⟨a, hparent, hc.full_of_full hopen.full,
          .inl (h.contained.passwordOf_before hpassword)⟩
  uncontested x p hx hp hf hnot hn := by
    by_cases hpf : t.stateOf placeholder p = .full
    · exact hc.full_of_full (h.uncontested x p hx hp hpf hnot hn)
    · -- The chain that has made `p` full goes on to `x`, and parts nowhere.
      obtain ⟨k, a, hopen, -⟩ := htop p hpf hf
      have hparent : t.parentOf x = some p := (h.contained.parentOf x).trans hx
      have hpassword : t.passwordOf p = some placeholder :=
        (passwordOf_congr (h.contained.person?_of_not_full hpf)).trans hp
      have hbelow := hopen.below hpassword hparent (hw.isSome_of_parent hparent).1
      exact hlone a x (k + 1) (hbelow.lone hw (fun hh => hnot (h.contained.passwordOf_before hh))
        fun hh => hn (hh.before h.contained))

/-- Re-keying passes over whoever stands right below a full person and does not hold the placeholder. -/
theorem person?_of_full_parent (h : t₀.Settling t placeholder) (hp : t₀.parentOf x = some y)
    (hy : t₀.stateOf placeholder y = .full) (hx : t₀.passwordOf x ≠ some placeholder) :
    t.person? x = t₀.person? x := by
  by_cases hf₀ : t₀.stateOf placeholder x = .full
  · exact h.contained.person?_of_full hf₀
  · refine h.contained.person?_of_not_full fun hf => ?_
    obtain ⟨p, hp', -, hpassword⟩ := h.parent x hf₀ hf
    cases hp.symm.trans hp'
    exact not_full_of_password (hpassword.resolve_left hx) hy

/-- If somebody has become full on one way to settle and not on another that leaves nothing open, there is a
contested empty person on the way up. -/
theorem exists_contested (h : t₀.Settling t placeholder) (h' : t₀.Settling t' placeholder)
    (hn' : t'.NothingOpen placeholder) (hup : t₀.ancestor? n x = none)
    (hx : t.stateOf placeholder x = .full) (hx' : t'.stateOf placeholder x ≠ .full) :
    ∃ j y, t₀.ancestor? j x = some y ∧ t₀.stateOf placeholder y = .empty ∧
      t₀.passwordOf y ≠ some placeholder ∧ t₀.Contested placeholder y := by
  induction n generalizing x with
  | zero => cases hup
  | succ n ih =>
    have hsame := h'.contained.person?_of_not_full hx'
    have hn : t₀.stateOf placeholder x ≠ .full := by rwa [← stateOf_congr hsame]
    obtain ⟨p, hp, hpf, hpassword⟩ := h.parent x hn hx
    by_cases hpf' : t'.stateOf placeholder p = .full
    · -- The ways part at `x`. Nobody open is left below `p`, so `x` is one of the others.
      have hparent : t'.parentOf x = some p := (h'.contained.parentOf x).trans hp
      have hnot : t₀.passwordOf x ≠ some placeholder := by
        intro hh
        exact nothingOpen_iff.mp hn' x p hparent hpf' ((passwordOf_congr hsame).trans hh)
      have hempty : t₀.stateOf placeholder x = .empty := by
        by_contra hne
        exact hnot (passwordOf_of_states hne hn)
      refine ⟨0, x, rfl, hempty, hnot, ?_⟩
      by_contra hun
      exact hx' (h'.uncontested x p hp (hpassword.resolve_left hnot) hpf' hnot hun)
    · rw [ancestor?_of_parent hp] at hup
      obtain ⟨j, y, hy, hrest⟩ := ih hup hpf hpf'
      exact ⟨j + 1, y, (ancestor?_of_parent hp j).trans hy, hrest⟩

end Settling

end Tree

namespace Rekey

section Forest

variable {order : MemoryStore → List ChainCandidate → List ChainCandidate} {cfg : JobConfig}
  {s s' : MemoryStore} {H n m : Nat} {t₀ : Tree}
  (horder : ∀ s l, (order s l).Perm l) (hlimit : cfg.maxInFlight ≤ maxPermits)
  (hd : H ≤ cfg.maxDepth.toNat)
include horder hlimit hd

/-- A pass over a forest, with its candidates in any order. -/
theorem settles_of_passed (hfail : ∀ x, x ∉ s.failing) (hw : s.tree.WellFormed)
    (hH : s.tree.HeightAtMost H) {r : Except Halt (Except StoreError RekeyPass)}
    (h : Passed (store.reordered order) cfg s (r, s')) :
    ∃ p, r = .ok (.ok p) ∧ s'.failing = s.failing ∧
      s.tree.Contained s'.tree cfg.placeholderPassword ∧
      s.tree.FilledFromTop s'.tree cfg.placeholderPassword ∧
      p.report.nodesWritten = (s.tree.loginChanges s'.tree).length ∧
      (∀ x a, s.tree.parentOf x = some a → s.tree.stateOf cfg.placeholderPassword a = .full →
        s.tree.passwordOf x = some cfg.placeholderPassword →
          s'.tree.stateOf cfg.placeholderPassword x = .full) ∧
      ∀ a y k, s.tree.LoneChain cfg.placeholderPassword a y k →
        s'.tree.stateOf cfg.placeholderPassword y = .full := by
  obtain ⟨found, hfound⟩ := hw.exists_rekeyCandidates hH hd cfg.placeholderPassword
  have hcall := MemoryStore.call_reordered order hfound
  cases h with
  | undiscovered hc | halted hc =>
    cases hc.symm.trans hcall
  | dispatched hc hdisp =>
    cases hc.symm.trans hcall
    have hdisp := dispatched_of_reordered hdisp
    have hperm := horder s.arrive found
    obtain ⟨p, rfl, hdone, hchild⟩ :=
      done_of_discovered (s := s.arrive.leave) hlimit hfail hw hH hd hfound hperm hdisp
    refine ⟨p, rfl, hdone.failing, hdone.contained, hdone.top, hdone.nodesWritten, hchild, ?_⟩
    intro a y k hlone
    exact full_of_loneChain (s := s.arrive.leave) hfail hw hfound hperm hH hd hlone hlimit hdisp

/-- A run with passes to spare ends well, leaves nothing open, and settles on the way. -/
theorem settles_of_repeated {total : RekeyReport} {settled : List Settled}
    {out : Except Halt RekeyRun × MemoryStore} (hfail : ∀ x, x ∉ s.failing)
    (hw : s.tree.WellFormed) (hH : s.tree.HeightAtMost H)
    (hopen : s.tree.OpenBelow cfg.placeholderPassword m) (hm : H < m + n)
    (hs : t₀.Settling s.tree cfg.placeholderPassword)
    (h : Repeated (store.reordered order) cfg n total settled s out) :
    ∃ run report, out.1 = .ok run ∧ run.result = .ok report ∧
      out.2.tree.NothingOpen cfg.placeholderPassword ∧
      t₀.Settling out.2.tree cfg.placeholderPassword := by
  induction h generalizing m with
  | spent =>
    refine ⟨_, _, rfl, rfl, Tree.nothingOpen_iff.mpr fun x a hx ha hp => ?_, hs⟩
    -- Whatever were open would have more edges above it than the forest is high.
    obtain ⟨z, hz⟩ := Option.isSome_iff_exists.mp (hopen x a hx ha hp)
    have := hH.le hz
    omega
  | halted hp | failed hp =>
    obtain ⟨_, hr, -⟩ := settles_of_passed horder hlimit hd hfail hw hH hp
    cases hr
  | converged hp hz =>
    obtain ⟨_, hr, -, hc, htop, hwritten, hchild, hlone⟩ :=
      settles_of_passed horder hlimit hd hfail hw hH hp
    cases hr
    have hsame : (Tree.loginChanges _ _).length = 0 := hwritten.symm.trans hz
    have hnone := hc.person?_of_loginChanges hsame
    refine ⟨_, _, rfl, rfl, Tree.NothingOpen.of_unchanged ?_ hc hsame, hs.pass hw hc htop hlone⟩
    refine Tree.nothingOpen_iff.mpr fun x a hx ha hp => Tree.not_full_of_password hp ?_
    exact (Tree.stateOf_congr (hnone x)).symm.trans (hchild x a hx ha hp)
  | again hp hz hrest ih =>
    obtain ⟨_, hr, hfailing, hc, htop, -, hchild, hlone⟩ :=
      settles_of_passed horder hlimit hd hfail hw hH hp
    cases hr
    exact ih (by rwa [hfailing]) (hc.wellFormed hw) (hc.heightAtMost hH)
      (hopen.deeper hc htop hchild) (by omega) (hs.pass hw hc htop hlone)

/-- Behind its first pass, the job's own run settles what that pass has left. -/
theorem settling_of_pass (hone : cfg.maxInFlight ≠ 0) (hfail : ∀ x, x ∉ s.failing)
    (hw : s.tree.WellFormed) (hH : s.tree.HeightAtMost H) (hn : H < n) :
    (pass (store.reordered order) cfg s).2.tree.Settling
      (untilConverged (store.reordered order) cfg n s).2.tree cfg.placeholderPassword := by
  have hpass := passed_pass (S := store.reordered order) hone s
  obtain ⟨m, hm⟩ : ∃ m, max 1 n = m + 1 := ⟨max 1 n - 1, by omega⟩
  rw [untilConverged, hm, passes]
  -- The run stops behind its first pass, or its other passes start from what the first has left.
  cases hp : pass (store.reordered order) cfg s with
  | mk r s' =>
    rw [hp] at hpass
    obtain ⟨p, rfl, hfailing, hc, -⟩ := settles_of_passed horder hlimit hd hfail hw hH hpass
    dsimp only
    split
    · exact .refl _ _
    · have hrest := repeated_passes (S := store.reordered order) hone m
        { ({} : RekeyReport).absorb p.report with passes := 1 } ([] ++ p.settled) s'
      obtain ⟨-, -, -, -, -, hsettled⟩ := settles_of_repeated horder hlimit hd (by rwa [hfailing])
        (hc.wellFormed hw) (hc.heightAtMost hH) (Tree.openBelow_one _ _) (by omega) (.refl _ _) hrest
      exact hsettled

end Forest

end Rekey

open Rekey (Repeated untilConverged)

/-- Re-keying a forest with more passes than it is high, with the candidates of every pass in any order and
the tasks moving by any schedule: a run ends well, and if two runs leave different records of a person, then
this person or somebody above it was empty and contested when they began. The job's own runs with its
candidates in these orders are among them. -/
theorem order_decides_contested_ends {cfg : JobConfig} {s : MemoryStore} {H n : Nat}
    (hone : cfg.maxInFlight ≠ 0) (hlimit : cfg.maxInFlight ≤ maxPermits)
    (hfail : ∀ x, x ∉ s.failing) (hw : s.tree.WellFormed) (hH : s.tree.HeightAtMost H)
    (hd : H ≤ cfg.maxDepth.toNat) (hn : H < n)
    (order order' : MemoryStore → List ChainCandidate → List ChainCandidate)
    (horder : ∀ s l, (order s l).Perm l) (horder' : ∀ s l, (order' s l).Perm l) :
    Repeated (store.reordered order) cfg (max 1 n) {} [] s
        (untilConverged (store.reordered order) cfg n s) ∧
      Repeated (store.reordered order') cfg (max 1 n) {} [] s
        (untilConverged (store.reordered order') cfg n s) ∧
      ∀ out out', Repeated (store.reordered order) cfg (max 1 n) {} [] s out →
        Repeated (store.reordered order') cfg (max 1 n) {} [] s out' →
        (∃ run report, out.1 = .ok run ∧ run.result = .ok report) ∧
        (∃ run report, out'.1 = .ok run ∧ run.result = .ok report) ∧
        ∀ x, out.2.tree.person? x ≠ out'.2.tree.person? x →
          ∃ j y, s.tree.ancestor? j x = some y ∧
            s.tree.stateOf cfg.placeholderPassword y = .empty ∧
            s.tree.passwordOf y ≠ some cfg.placeholderPassword ∧
            s.tree.Contested cfg.placeholderPassword y := by
  refine ⟨Rekey.repeated_passes hone _ _ _ s, Rekey.repeated_passes hone _ _ _ s,
    fun out out' hrun hrun' => ?_⟩
  have hopen := s.tree.openBelow_one cfg.placeholderPassword
  have hm : H < 1 + max 1 n := by omega
  have hstart := Tree.Settling.refl s.tree cfg.placeholderPassword
  obtain ⟨run, report, hr, hreport, hnone, hsettled⟩ :=
    Rekey.settles_of_repeated horder hlimit hd hfail hw hH hopen hm hstart hrun
  obtain ⟨run', report', hr', hreport', hnone', hsettled'⟩ :=
    Rekey.settles_of_repeated horder' hlimit hd hfail hw hH hopen hm hstart hrun'
  refine ⟨⟨run, report, hr, hreport⟩, ⟨run', report', hr', hreport'⟩, fun x hne => ?_⟩
  have hup : s.tree.ancestor? (H + 1) x = none := hH x
  -- A record that the two runs leave different belongs to somebody who has become full in one of them only.
  by_cases hf : out.2.tree.stateOf cfg.placeholderPassword x = .full
  · by_cases hf' : out'.2.tree.stateOf cfg.placeholderPassword x = .full
    · exact absurd (hsettled'.contained.person?_eq hsettled.contained (iff_of_true hf hf')) hne
    · exact hsettled.exists_contested hsettled' hnone' hup hf hf'
  · by_cases hf' : out'.2.tree.stateOf cfg.placeholderPassword x = .full
    · exact hsettled'.exists_contested hsettled hnone hup hf' hf
    · exact absurd (hsettled'.contained.person?_eq hsettled.contained (iff_of_false hf hf')) hne

/-! ### Two chains that part below one holder -/

namespace Tree

/-- A holder of the placeholder with an empty child and a child that holds the placeholder as well. -/
def siblings : Tree :=
  let people : List PersonRecord := [
    { id := ⟨"root"⟩, attributes := { username := some "boss", password := some "real" } },
    { id := ⟨"p"⟩, attributes := { username := some "p", password := some "changeme" } },
    { id := ⟨"c"⟩, attributes := { username := some "c", password := some "changeme" } },
    { id := ⟨"e"⟩ }]
  (((people.foldl insert default).attach ⟨"root"⟩ ⟨"p"⟩ .left).attach ⟨"p"⟩ ⟨"e"⟩ .left).attach
    ⟨"p"⟩ ⟨"c"⟩ .right

theorem heightAtMost_siblings : siblings.HeightAtMost 2 := .of_keys (by decide +kernel)

theorem wellFormed_siblings : siblings.WellFormed :=
  .of_keys heightAtMost_siblings (by decide +kernel)

theorem rekeyCandidates_siblings : siblings.rekeyCandidates "changeme" 10000 =
    .ok [⟨⟨"root"⟩, ⟨"c"⟩⟩, ⟨⟨"root"⟩, ⟨"e"⟩⟩] := by
  have hstarts : siblings.people.keys.filter
      (fun id => siblings.stateOf "changeme" id == .full) = [⟨"root"⟩] := by
    decide +kernel
  have hroot : siblings.candidatesBelow "changeme" 10000 ⟨"root"⟩ =
      .ok [⟨⟨"root"⟩, ⟨"c"⟩⟩, ⟨⟨"root"⟩, ⟨"e"⟩⟩] := by
    have hchildren : siblings.childrenOf ⟨"root"⟩ = [⟨"p"⟩] := by decide +kernel
    have hp : siblings.visit "changeme" 10000 ⟨"p"⟩ 1 = .goesOn [⟨"e"⟩, ⟨"c"⟩] :=
      visit_eq_goesOn_iff.mpr (by decide +kernel)
    have he : siblings.visit "changeme" 10000 ⟨"e"⟩ (1 + 1) = .ends :=
      visit_eq_ends_iff.mpr (by decide +kernel)
    have hc : siblings.visit "changeme" 10000 ⟨"c"⟩ (1 + 1) = .ends :=
      visit_eq_ends_iff.mpr (by decide +kernel)
    rw [candidatesBelow, hchildren, List.map_singleton, chainEnds_of_goesOn hp (by decide),
      List.append_nil, List.map_cons, List.map_singleton, chainEnds_of_ends he,
      chainEnds_of_ends hc, chainEnds_nil]
    rfl
  simp only [rekeyCandidates, hstarts, List.mapM_cons, List.mapM_nil, hroot]
  simp only [bind, Except.bind, pure, Except.pure, List.flatten_cons, List.flatten_nil,
    List.append_nil]
  exact congrArg _ (List.mergeSort_of_pairwise (by decide +kernel))

end Tree

/-- In the order in which they were found, or in the reverse order, the two chains differ in their end only. -/
theorem order_spares_sibling : Tree.siblings.WellFormed ∧ Tree.siblings.HeightAtMost 2 ∧
    (untilConverged (store.reordered fun _ l => l) { placeholderPassword := "changeme" } 4
        { tree := .siblings }).2.tree.person? ⟨"c"⟩ =
      (untilConverged (store.reordered fun _ => List.reverse)
        { placeholderPassword := "changeme" } 4 { tree := .siblings }).2.tree.person? ⟨"c"⟩ := by
  have hone : ({ placeholderPassword := "changeme" } : JobConfig).maxInFlight ≠ 0 := by decide
  have hlimit : ({ placeholderPassword := "changeme" } : JobConfig).maxInFlight ≤ maxPermits := by
    decide
  have hdepth : 2 ≤ ({ placeholderPassword := "changeme" } : JobConfig).maxDepth.toNat := by decide
  have hfail : ∀ x, x ∉ ({ tree := .siblings } : MemoryStore).failing :=
    fun x => Std.TreeSet.not_mem_emptyc
  have hn : 2 < 4 := by decide
  refine ⟨Tree.wellFormed_siblings, Tree.heightAtMost_siblings, ?_⟩
  obtain ⟨hrun, hrun', hall⟩ := order_decides_contested_ends hone hlimit hfail
    Tree.wellFormed_siblings Tree.heightAtMost_siblings hdepth hn (fun _ l => l)
    (fun _ => List.reverse) (fun _ l => .refl l) fun _ l => l.reverse_perm
  by_contra hne
  obtain ⟨-, -, hdiffer⟩ := hall _ _ hrun hrun'
  obtain ⟨j, y, hy, hempty, hpassword, -⟩ := hdiffer ⟨"c"⟩ hne
  -- From `c` upwards there are two holders of the placeholder and a full person.
  have hj : j ≤ 2 := Tree.heightAtMost_siblings.le hy
  obtain rfl | rfl | rfl : j = 0 ∨ j = 1 ∨ j = 2 := by omega
  · cases hy
    exact hpassword (by decide +kernel)
  · have hp : Tree.siblings.ancestor? 1 ⟨"c"⟩ = some ⟨"p"⟩ := by decide +kernel
    cases hp.symm.trans hy
    exact hpassword (by decide +kernel)
  · have hroot : Tree.siblings.ancestor? 2 ⟨"c"⟩ = some ⟨"root"⟩ := by decide +kernel
    cases hroot.symm.trans hy
    revert hempty
    decide +kernel

section Siblings

/-- The siblings after a discovery. -/
def MemoryStore.discoveredSiblings : MemoryStore :=
  ({ tree := .siblings } : MemoryStore).arrive.leave

/-- What the first pass has left of the two chains, begun in some order, the run goes on to settle. -/
theorem settling_siblings (order : MemoryStore → List ChainCandidate → List ChainCandidate)
    (horder : ∀ s l, (order s l).Perm l) :
    (dispatch (store.reordered order) { placeholderPassword := "changeme" }
        (order ({ tree := .siblings } : MemoryStore).arrive
          [⟨⟨"root"⟩, ⟨"c"⟩⟩, ⟨⟨"root"⟩, ⟨"e"⟩⟩]) .discoveredSiblings).2.tree.Settling
      (untilConverged (store.reordered order) { placeholderPassword := "changeme" } 4
        { tree := .siblings }).2.tree "changeme" := by
  have hone : ({ placeholderPassword := "changeme" } : JobConfig).maxInFlight ≠ 0 := by decide
  have hlimit : ({ placeholderPassword := "changeme" } : JobConfig).maxInFlight ≤ maxPermits := by
    decide
  have hdepth : 2 ≤ ({ placeholderPassword := "changeme" } : JobConfig).maxDepth.toNat := by decide
  have hn : 2 < 4 := by decide
  have hsettled := Rekey.settling_of_pass (s := { tree := .siblings }) horder hlimit hdepth hone
    (fun x => Std.TreeSet.not_mem_emptyc) Tree.wellFormed_siblings Tree.heightAtMost_siblings hn
  have hcall := MemoryStore.call_reordered order (s := { tree := .siblings })
    Tree.rekeyCandidates_siblings
  rw [Rekey.pass_of_discovery { placeholderPassword := "changeme" } hcall] at hsettled
  exact hsettled

/-- The job's own run starts with the chain down to `c`, and `e` stays as it is; with the candidates of each
pass the other way round `e` is given a login. -/
theorem order_decides_sibling : Tree.siblings.WellFormed ∧ Tree.siblings.HeightAtMost 2 ∧
    (untilConverged store { placeholderPassword := "changeme" } 4
        { tree := .siblings }).2.tree.credentialsOf ⟨"e"⟩ = none ∧
      (untilConverged (store.reordered fun _ => List.reverse)
        { placeholderPassword := "changeme" } 4
          { tree := .siblings }).2.tree.credentialsOf ⟨"e"⟩ = some ⟨"boss", "real"⟩ := by
  refine ⟨Tree.wellFormed_siblings, Tree.heightAtMost_siblings, ?_, ?_⟩
  · have hsettled := settling_siblings (fun _ l => l) fun _ l => .refl l
    rw [Store.reordered_id] at hsettled
    -- The first pass has made `p` full, and so `e` is out of reach.
    have hsame := hsettled.person?_of_full_parent (x := ⟨"e"⟩) (y := ⟨"p"⟩) (by decide +kernel)
      (by decide +kernel) (by decide +kernel)
    rw [Tree.credentialsOf_congr hsame]
    decide +kernel
  · have hsettled := settling_siblings (fun _ => List.reverse) fun _ l => l.reverse_perm
    have hsame := hsettled.contained.person?_of_full (x := ⟨"e"⟩) (by decide +kernel)
    rw [Tree.credentialsOf_congr hsame]
    decide +kernel

end Siblings

end Downline
