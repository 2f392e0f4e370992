import Downline.Proofs.Rekey.Convergence

/-! Chains that share none of their people with another chain. Nobody but the task of such a chain writes to
it, so the first write of that task fills all of it, and the second is not given up: when a pass is over, the
end of the chain is full even if it was empty. -/

namespace Downline

namespace Tree

/-- The people right above `y` hold the placeholder, up to somebody who has more than one child: chains part
there, and `y` ends one of them. -/
def Contested (t : Tree) (placeholder : String) (y : PersonId) : Prop :=
  ∃ i z, 0 < i ∧ t.ancestor? i y = some z ∧ 1 < (t.childrenOf z).length ∧
    ∀ j w, 0 < j → j ≤ i → t.ancestor? j y = some w → t.passwordOf w = some placeholder

/-- An open chain that parts nowhere from others, down to somebody who does not hold the placeholder. -/
structure LoneChain (t : Tree) (placeholder : String) (start last : PersonId) (k : Nat) : Prop
    extends OpenChain t placeholder start last k where
  password_last : t.passwordOf last ≠ some placeholder
  only : ∀ j x c, 0 < j → j < k → t.ancestor? j last = some x → t.parentOf c = some x →
    t.ancestor? (j - 1) last = some c

/-- Discovery ends its chains at somebody who does not hold the placeholder or has no child. -/
def EndsChain (t : Tree) (placeholder : String) (x : PersonId) : Prop :=
  t.passwordOf x ≠ some placeholder ∨ t.childrenOf x = []

variable {t t' : Tree} {placeholder : String} {maxDepth depth : UInt32} {x y z p a start last : PersonId}
  {i j k m : Nat} {d : ChainCandidate}

theorem endsChain_of_leads (h : t.Leads placeholder maxDepth x depth last) :
    t.EndsChain placeholder last := by
  induction h with
  | ends hv =>
    obtain ⟨-, ⟨-, hnone⟩ | ⟨hp, -⟩⟩ := visit_eq_ends_iff.mp hv
    · exact .inr hnone
    · exact .inl hp
  | goesOn _ _ _ ih => exact ih

/-- An open chain goes on below a holder of the placeholder at its end. -/
theorem OpenChain.below (h : t.OpenChain placeholder start p k)
    (hp : t.passwordOf p = some placeholder) (hx : t.parentOf x = some p)
    (hsome : (t.person? x).isSome) : t.OpenChain placeholder start x (k + 1) where
  isSome := hsome
  first := by
    refine h.first.further hx fun he => ?_
    rw [he] at hp
    exact not_full_of_password hp h.full
  full := h.full
  interior j y hj hjk hy := by
    obtain ⟨i, rfl⟩ : ∃ i, j = i + 1 := ⟨j - 1, by omega⟩
    rw [ancestor?_of_parent hx] at hy
    rcases Nat.eq_zero_or_pos i with rfl | hi
    · cases hy
      exact hp
    · exact h.interior i y hi (by omega) hy
  some_target := .inl (Nat.succ_lt_succ h.first.pos)

/-- An open chain is a lone one if its end is not contested. -/
theorem OpenChain.lone (h : t.OpenChain placeholder start last k) (hw : t.WellFormed)
    (hp : t.passwordOf last ≠ some placeholder) (hn : ¬ t.Contested placeholder last) :
    t.LoneChain placeholder start last k := by
  refine ⟨h, hp, fun j x c hj hjk hx hc => ?_⟩
  obtain ⟨b, hb, hbx⟩ := exists_child_of_ancestor hj hx
  by_contra hne
  -- Otherwise `x` has two children, and everyone from there down to the end holds the placeholder.
  refine hn ⟨j, x, hj, hx, ?_, fun i w hi hij hw => h.interior i w hi (by omega) hw⟩
  have hbc : [b, c].Nodup := by
    rw [List.nodup_cons, List.mem_singleton]
    refine ⟨?_, List.nodup_singleton c⟩
    rintro rfl
    exact hne hb
  have hsub : [b, c] ⊆ t.childrenOf x := by
    intro e he
    rcases List.mem_pair.mp he with rfl | rfl
    · exact (hw.mirrored x _).mpr hbx
    · exact (hw.mirrored x _).mpr hc
  exact (List.subperm_of_subset hbc hsub).length_le

namespace LoneChain

variable (h : t.LoneChain placeholder start last k)
include h

theorem long : 1 < k := h.some_target.resolve_right h.password_last

/-- Whoever stands below a member of a lone chain, but no lower than its end, is a member. -/
theorem ancestor_of_below (hjk : j < k) (hz : t.ancestor? j last = some z) (hij : i ≤ j)
    (hx : t.ancestor? i x = some z) : t.ancestor? (j - i) last = some x := by
  induction i generalizing j z with
  | zero =>
    cases hx
    exact hz
  | succ i ih =>
    obtain ⟨c, hc⟩ := ancestor?_of_le hx (Nat.le_succ i)
    have hcz : t.parentOf c = some z := (ancestor?_succ_of_ancestor hc).symm.trans hx
    have hup : t.ancestor? (j - 1) last = some c := h.only j z c (by omega) hjk hz hcz
    have hmember := ih (by omega) hup (by omega) hc
    rwa [Nat.sub_sub, Nat.add_comm] at hmember

variable (hw : t.WellFormed)
include hw

/-- No chain ends between the start and the end of a lone chain. -/
theorem ne_of_endsChain (hj : 0 < j) (hjk : j < k) (hz : t.ancestor? j last = some z)
    (hx : t.EndsChain placeholder x) : z ≠ x := by
  rintro rfl
  rcases hx with hp | hnone
  · exact hp (h.interior j z hj hjk hz)
  · obtain ⟨b, -, hbz⟩ := exists_child_of_ancestor hj hz
    have hmem : b ∈ t.childrenOf z := (hw.mirrored z b).mpr hbz
    rw [hnone] at hmem
    cases hmem

/-- A chain that shares somebody between start and end with a lone chain is that chain. -/
theorem eq_of_shared (hd : t.EndsChain placeholder d.last)
    (hopen : t.OpenChain placeholder d.start d.last m) (hj : 0 < j) (hjk : j < k)
    (hz : t.ancestor? j last = some z) (him : i < m) (hi : t.ancestor? i d.last = some z) :
    d = ⟨start, last⟩ := by
  have hstart : d.start = start := ((hopen.nearest him hi).unique (h.nearest hjk hz)).2
  have hlast : d.last = last := by
    rcases Nat.lt_or_ge j i with hlt | hle
    · -- The end of the other chain would stand below `last`, and so `last` would hold the placeholder.
      obtain ⟨b, hb⟩ := ancestor?_of_le hi (Nat.sub_le i j)
      have hbz : t.ancestor? j b = some z := by
        have hup := ancestor?_from hb (Nat.sub_le i j)
        rwa [Nat.sub_sub_self (Nat.le_of_lt hlt), hi, eq_comm] at hup
      have hself := h.ancestor_of_below hjk hz (Nat.le_refl j) hbz
      rw [Nat.sub_self] at hself
      cases hself
      exact absurd (hopen.interior (i - j) last (by omega) (by omega) hb) h.password_last
    · have hmember := h.ancestor_of_below hjk hz hle hi
      rcases Nat.eq_zero_or_pos (j - i) with hzero | hpos
      · rw [hzero] at hmember
        cases hmember
        rfl
      · exact absurd rfl (h.ne_of_endsChain hw hpos (by omega) hmember hd)
  rw [← hstart, ← hlast]

/-- Discovery finds a lone chain. -/
theorem mem_rekeyCandidates {H : Nat} {candidates : List ChainCandidate} (hH : t.HeightAtMost H)
    (hd : H ≤ maxDepth.toNat) (hc : t.rekeyCandidates placeholder maxDepth = .ok candidates) :
    ⟨start, last⟩ ∈ candidates := by
  have hlong := h.long
  obtain ⟨x, hx, hxa, hp⟩ := h.exists_top
  -- The candidate that leads through the topmost holder is this one.
  obtain ⟨bottom, m, hm, -, hopen, htop⟩ := hw.exists_candidate hH hd hc hxa h.full hp
  obtain ⟨-, y, -, hlead⟩ := (Tree.mem_rekeyCandidates hc).mp hm
  have hpos := hopen.first.pos
  have hsame := h.eq_of_shared (d := ⟨start, bottom⟩) hw (endsChain_of_leads hlead) hopen
    (by omega) (by omega) hx (by omega) htop
  rwa [hsame] at hm

end LoneChain

end Tree

/-! ### What the tasks do -/

/-- Before its first write a task plans to write each target once, and the end as well while it is empty. -/
def TaskPhase.Thorough (t t' : Tree) (placeholder : String) (c : ChainCandidate) : TaskPhase → Prop
  | commit plan => plan.targets.Nodup ∧
      (t.passwordOf c.last ≠ some placeholder → t'.stateOf placeholder c.last ≠ .full →
        plan.emptyEnd = some c.last)
  | _ => True

/-- Where the end of a lone chain stands in a pass that began with the tree `t`. -/
inductive EndSeenTo (t t' : Tree) (placeholder : String) (d : ChainCandidate) (k : Nat)
    (crew : Crew) : Prop where
  | full (hf : t'.stateOf placeholder d.last = .full)
  /-- All the others are full, and a task is about to write the end. -/
  | absorbing {c : ChainCandidate} {plan : RekeyPlan} {written : Nat}
      (hm : (c, some (.absorb plan d.last written)) ∈ crew)
  /-- Nobody on the chain has been written, and its task is still to come. -/
  | waiting {phase : TaskPhase}
      (hchain : ∀ j z, 0 < j → j < k → t.ancestor? j d.last = some z →
        t'.stateOf placeholder z ≠ .full)
      (hm : (d, some phase) ∈ crew) (hphase : phase = .verify ∨ ∃ plan, phase = .commit plan)

/-- A moment of a pass over chains that discovery has found in the tree `t`. -/
structure LonePass (t : Tree) (placeholder : String) (t' : Tree) (crew : Crew) : Prop
    extends PassInv t placeholder t' crew where
  ends : ∀ m ∈ crew, t.EndsChain placeholder m.1.last
  thorough : ∀ c phase, (c, some phase) ∈ crew → phase.Thorough t t' placeholder c

variable {t t₁ t₂ : Tree} {placeholder : String} {c d : ChainCandidate} {phase phase' : TaskPhase}
  {rest : Crew} {settings : TaskSettings} {failing : IdSet} {k : Nat} {plan : RekeyPlan}

theorem TaskPhase.Thorough.mono (h : phase.Thorough t t₁ placeholder c)
    (hkeep : ∀ x, t₁.stateOf placeholder x = .full → t₂.stateOf placeholder x = .full) :
    phase.Thorough t t₂ placeholder c := by
  cases phase with
  | commit plan => exact ⟨h.1, fun hp hn => h.2 hp fun hf => hn (hkeep _ hf)⟩
  | verify | absorb | ended => trivial

/-- Where a call leads, the task is as thorough as before. -/
theorem Work.thorough (hw : Work failing settings c phase t₁ phase' t₂)
    (hc : t.Contained t₁ settings.placeholder) :
    phase'.Thorough t t₂ settings.placeholder c := by
  cases hw with
  | refused hr =>
    rw [TaskPhase.next_error hr]
    trivial
  | verify =>
    refine TaskPhase.afterPath_cases (P := (·.Thorough t t₁ settings.placeholder c)) _
      (fun _ => trivial) fun path plan hpath hplan => ?_
    obtain ⟨k, -, hplanned⟩ := Tree.planned_of_plan hpath hplan
    refine ⟨Tree.nodup_targets hpath hplan, fun hp hn => ?_⟩
    have hp₁ : t₁.passwordOf c.last ≠ some settings.placeholder :=
      fun hp₁ => hp (hc.passwordOf_before hp₁)
    refine (hplanned.emptyEnd c.last).mpr ⟨rfl, hp₁, ?_⟩
    by_contra hne
    exact hp₁ (Tree.passwordOf_of_states hne hn)
  | commit =>
    exact TaskPhase.afterCommit_cases (P := (·.Thorough t _ settings.placeholder c)) _ _ trivial
      fun _ _ => trivial
  | absorb => trivial

theorem LonePass.of_work (hfail : ∀ x, x ∉ failing)
    (hw : Work failing settings c phase t₁ phase' t₂)
    (h : LonePass t settings.placeholder t₁ ((c, some phase) ::ₘ rest)) :
    LonePass t settings.placeholder t₂ ((c, some phase') ::ₘ rest) where
  toPassInv := h.toPassInv.of_work hfail hw
  ends := by
    rw [Multiset.forall_mem_cons]
    exact ⟨h.ends (c, some phase) (Multiset.mem_cons_self _ _),
      fun m hm => h.ends m (Multiset.mem_cons_of_mem hm)⟩
  thorough := by
    obtain ⟨-, hrest⟩ := Crew.forall_cons.mp h.thorough
    exact Crew.forall_cons.mpr ⟨hw.thorough h.contained,
      fun c phase hm => (hrest c phase hm).mono fun x hf => hw.full_of_full hf⟩

/-- The second write of a task leaves the end of its chain full. -/
theorem Work.full_of_absorb {last : PersonId} {written : Nat} (hfail : ∀ x, x ∉ failing)
    (hw : Work failing settings c (.absorb plan last written) t₁ phase' t₂)
    (hsome : (t₁.person? last).isSome) (hp : plan.credentials.password ≠ settings.placeholder) :
    t₂.stateOf settings.placeholder last = .full := by
  cases hw with
  | refused hr hx => exact absurd hx (Call.not_names_failing hfail _)
  | absorb =>
    by_cases hf : t₁.stateOf settings.placeholder last = .full
    · exact full_of_full_write (g := .notFull settings.placeholder) hf
    · have hwritable : last ∈ t₁.writable [last] (.notFull settings.placeholder) :=
        Tree.writable_notFull.mpr ⟨List.mem_singleton_self _, hsome, hf⟩
      exact Tree.full_write_of_writable (g := .notFull settings.placeholder) hwritable hp

section Lone

variable (hlone : t.LoneChain settings.placeholder d.start d.last k)
include hlone

/-- Only the first write of its own task writes anybody between the start and the end of a lone chain. -/
theorem Work.spares_lone {j : Nat} {z : PersonId} (hforest : t.WellFormed)
    (hw : Work failing settings c phase t₁ phase' t₂)
    (hpass : LonePass t settings.placeholder t₁ ((c, some phase) ::ₘ rest))
    (hother : ∀ plan, phase = .commit plan → c ≠ d) (hj : 0 < j) (hjk : j < k)
    (hz : t.ancestor? j d.last = some z) (hn : t₁.stateOf settings.placeholder z ≠ .full) :
    t₂.stateOf settings.placeholder z ≠ .full := by
  have hself := Multiset.mem_cons_self (c, some phase) rest
  have hend : t.EndsChain settings.placeholder c.last := hpass.ends _ hself
  cases hw with
  | refused | verify => exact hn
  | @commit plan =>
    have hnot : z ∉ t₁.writable plan.targets (.holdsPlaceholder settings.placeholder) := by
      intro hzw
      obtain ⟨m, hcov⟩ := hpass.aligned _ _ hself
      obtain ⟨i, him, hi, -⟩ := hcov.targets z (t₁.mem_writable.mp hzw).1
      exact hother plan rfl (hlone.eq_of_shared hforest hend hcov.chain hj hjk hz him hi)
    rwa [Tree.stateOf_congr (Tree.person?_write_of_not_writable hnot)]
  | @absorb plan last written =>
    have hnot : z ∉ t₁.writable [last] (.notFull settings.placeholder) := by
      intro hzw
      obtain ⟨rfl, -⟩ := hpass.aligned _ _ hself
      have hz' : z = c.last := List.mem_singleton.mp (t₁.mem_writable.mp hzw).1
      exact hlone.ne_of_endsChain hforest hj hjk hz hend hz'
    rwa [Tree.stateOf_congr (Tree.person?_write_of_not_writable hnot)]

variable (hc : t.Contained t₁ settings.placeholder)
  (hchain : ∀ j z, 0 < j → j < k → t.ancestor? j d.last = some z →
    t₁.stateOf settings.placeholder z ≠ .full)
include hc hchain

/-- While nobody on a lone chain has been written, its task plans to write it. -/
theorem exists_commit_of_waiting (hk : k ≤ settings.maxDepth.toNat) : ∃ plan,
    TaskPhase.afterPath settings (.ok (t₁.downwardPath? d.start d.last settings.maxDepth)) =
      .commit plan := by
  -- The chain is as open as it was when discovery found it, so a plan fits the path that the task reads.
  have hopen : t₁.OpenChain settings.placeholder d.start d.last k := by
    refine ⟨?_, hlone.first.congr hc.parentOf fun _ _ _ _ _ => Iff.rfl, hc.full_of_full hlone.full,
      fun j x hj hjk hx => ?_, .inl hlone.long⟩
    · rw [hc.isSome_person?]
      exact hlone.isSome
    · rw [Tree.ancestor?_congr hc.parentOf] at hx
      have hsame := hc.person?_of_not_full (hchain j x hj hjk hx)
      exact (Tree.passwordOf_congr hsame).trans (hlone.interior j x hj hjk hx)
  obtain ⟨path, plan, hpath, hplan⟩ := hopen.exists_plan hk
  refine ⟨plan, ?_⟩
  rw [hpath, TaskPhase.afterPath, hplan]

/-- The first write to a lone chain fills all of it, so its task goes on to the end. -/
theorem exists_absorb_of_waiting (hcov : plan.Covers t settings.placeholder d m)
    (hn : plan.targets.Nodup) (hend : plan.emptyEnd = some d.last) : ∃ written,
    TaskPhase.afterCommit plan (.ok (t₁.write plan.targets plan.credentials
      (.holdsPlaceholder settings.placeholder)).1) = .absorb plan d.last written := by
  have htargets : ∀ x ∈ plan.targets, t₁.passwordOf x = some settings.placeholder := by
    intro x hx
    obtain ⟨j, hjm, hj, hp⟩ := hcov.targets x hx
    obtain ⟨rfl, -⟩ := hcov.chain.first.unique hlone.first
    -- The end does not hold the placeholder, so the targets stand above it.
    have hpos : 0 < j := by
      refine Nat.pos_of_ne_zero ?_
      rintro rfl
      cases hj
      exact hlone.password_last hp
    have hsame := hc.person?_of_not_full (hchain j x hpos hjm hj)
    exact (Tree.passwordOf_congr hsame).trans hp
  refine ⟨plan.targets.length, ?_⟩
  simp only [TaskPhase.afterCommit, hend, Tree.fst_write_of_passwords hn htargets, if_true]

end Lone

/-- Whatever the tasks do, the end of a lone chain is not lost sight of. -/
theorem EndSeenTo.of_work (hforest : t.WellFormed) (hfail : ∀ x, x ∉ failing)
    (hlone : t.LoneChain settings.placeholder d.start d.last k) (hk : k ≤ settings.maxDepth.toNat)
    (hw : Work failing settings c phase t₁ phase' t₂)
    (hpass : LonePass t settings.placeholder t₁ ((c, some phase) ::ₘ rest))
    (h : EndSeenTo t t₁ settings.placeholder d k ((c, some phase) ::ₘ rest)) :
    EndSeenTo t t₂ settings.placeholder d k ((c, some phase') ::ₘ rest) := by
  by_cases hf : t₁.stateOf settings.placeholder d.last = .full
  · exact .full (hw.full_of_full hf)
  have hself := Multiset.mem_cons_self (c, some phase) rest
  have hself' := Multiset.mem_cons_self (c, some phase') rest
  cases h with
  | full hfull => exact absurd hfull hf
  | @absorbing c' plan written hm =>
    rcases Multiset.mem_cons.mp hm with he | hm
    · -- It is the task at work that writes the end, now.
      cases he
      have hrightful : t.Inherits settings.placeholder d.last plan.credentials :=
        hpass.rightful _ _ hself
      refine .full (hw.full_of_absorb hfail ?_ hrightful.password_ne)
      rw [hpass.contained.isSome_person?]
      exact hlone.isSome
    · exact .absorbing (Multiset.mem_cons_of_mem hm)
  | @waiting phase₁ hchain hm hphase =>
    by_cases hfirst : c = d ∧ ∃ plan, phase = .commit plan
    · -- The task of the chain is the first to write, and so it writes all of it.
      obtain ⟨rfl, plan, rfl⟩ := hfirst
      obtain ⟨m, hcov⟩ := hpass.aligned _ _ hself
      obtain ⟨hn, hend⟩ := hpass.thorough _ _ hself
      cases hw with
      | refused hr hx => exact absurd hx (Call.not_names_failing hfail _)
      | commit =>
        obtain ⟨written, hnext⟩ := exists_absorb_of_waiting hlone hpass.contained hchain hcov hn
          (hend hlone.password_last hf)
        rw [hnext] at hself' ⊢
        exact .absorbing hself'
    · -- Any other call passes the chain by, and leaves its task with the same work to do.
      have hother : ∀ plan, phase = .commit plan → c ≠ d :=
        fun plan hp hcd => hfirst ⟨hcd, plan, hp⟩
      have hchain' : ∀ j z, 0 < j → j < k → t.ancestor? j d.last = some z →
          t₂.stateOf settings.placeholder z ≠ .full := fun j z hj hjk hz =>
        hw.spares_lone hlone hforest hpass hother hj hjk hz (hchain j z hj hjk hz)
      rcases Multiset.mem_cons.mp hm with he | hm
      · cases he
        obtain rfl | ⟨plan, rfl⟩ := hphase
        · cases hw with
          | refused hr hx => exact absurd hx (Call.not_names_failing hfail _)
          | verify =>
            obtain ⟨plan, hplan⟩ := exists_commit_of_waiting hlone hpass.contained hchain hk
            exact .waiting hchain' hself' (.inr ⟨plan, hplan⟩)
        · exact absurd rfl (hother plan rfl)
      · exact .waiting hchain' (Multiset.mem_cons_of_mem hm) hphase

/-! ### Passes -/

section Pass

variable {cfg : JobConfig} {found candidates : List ChainCandidate} {p p' : Pool}
  {s s' : MemoryStore} {moves : List Pool.Move} {H : Nat} {start last : PersonId}
  (hfail : ∀ x, x ∉ s.failing) (hw : s.tree.WellFormed)
  (hfound : s.tree.rekeyCandidates cfg.placeholderPassword cfg.maxDepth = .ok found)
  (hperm : candidates.Perm found)
include hfail hw hfound hperm

theorem lonePass_of_start (hp : Pool.start cfg candidates = .ok p) :
    LonePass s.tree cfg.placeholderPassword s.tree p.crew := by
  have hstarts : ∀ c ∈ candidates, s.tree.stateOf cfg.placeholderPassword c.start = .full :=
    fun c hc => (hw.of_mem_rekeyCandidates hfound (hperm.subset hc)).1
  have hinv := (passInv_of_replay hfail hstarts hp
    (show Pool.replay? MemoryStore.store [] (p, s) = some (p, s) from rfl)).1
  refine ⟨hinv, fun m hm => ?_, fun c phase hm => ?_⟩
  · obtain ⟨c, hc, rfl⟩ := (Pool.mem_crew_of_start hp).mp hm
    obtain ⟨-, x, -, hlead⟩ := (Tree.mem_rekeyCandidates hfound).mp (hperm.subset hc)
    exact Tree.endsChain_of_leads hlead
  · cases Pool.verify_of_start hp hm
    trivial

variable (hH : s.tree.HeightAtMost H) (hd : H ≤ cfg.maxDepth.toNat)
  (hlone : s.tree.LoneChain cfg.placeholderPassword start last k)
include hH hd hlone

theorem full_of_replay (hp : Pool.start cfg candidates = .ok p)
    (hm : Pool.replay? MemoryStore.store moves (p, s) = some (p', s')) (ho : p'.isOver = true) :
    s'.tree.stateOf cfg.placeholderPassword last = .full := by
  have hk : k ≤ cfg.maxDepth.toNat := Nat.le_trans (hH.le hlone.first.reached) hd
  have hmember : ⟨start, last⟩ ∈ candidates :=
    hperm.symm.subset (hlone.mem_rekeyCandidates hw hH hd hfound)
  have hpass := lonePass_of_start hfail hw hfound hperm hp
  have hseen : EndSeenTo s.tree s.tree cfg.placeholderPassword ⟨start, last⟩ k p.crew := by
    refine .waiting (fun j z hj hjk hz => ?_)
      ((Pool.mem_crew_of_start hp).mpr ⟨_, hmember, rfl⟩) (.inl rfl)
    exact Tree.not_full_of_password (hlone.interior j z hj hjk hz)
  have hend := (Pool.crew_of_replay
    (I := fun t crew => LonePass s.tree cfg.placeholderPassword t crew ∧
      EndSeenTo s.tree t cfg.placeholderPassword ⟨start, last⟩ k crew) ?_ hm ⟨hpass, hseen⟩).1.2
  · -- All tasks have ended, so nobody is going to write the end any more.
    cases hend with
    | full hf => exact hf
    | absorbing hm =>
      obtain ⟨result, he⟩ := Pool.ended_of_isOver ho hm
      cases he
    | waiting _ hm hphase =>
      obtain ⟨result, rfl⟩ := Pool.ended_of_isOver ho hm
      obtain hv | ⟨plan, hplan⟩ := hphase
      · cases hv
      · cases hplan
  · intro c phase phase' rest t t' hwork hI
    obtain ⟨hpass, hseen⟩ := hI
    rw [Pool.settings_of_start hp] at hwork
    exact ⟨hpass.of_work hfail hwork, hseen.of_work hw hfail hlone hk hwork hpass⟩

/-- When a pass over what discovery finds, in any order, is over, the end of each lone chain is full. -/
theorem full_of_loneChain {r : Except Halt RekeyPass} (hlimit : cfg.maxInFlight ≤ maxPermits)
    (h : Dispatched MemoryStore.store cfg candidates s (r, s')) :
    s'.tree.stateOf cfg.placeholderPassword last = .full := by
  obtain ⟨p, p', moves, hp, hm, ho, -⟩ := h.exists_schedule hlimit
  exact full_of_replay hfail hw hfound hperm hH hd hlone hp hm ho

end Pass

end Downline
