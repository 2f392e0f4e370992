import Downline.Proofs.Rekey.Chains
import Downline.Proofs.Rekey.Counting

/-! One re-keying pass over candidates that start at full people, when no call fails. Tasks race for chains
that share people, but every plan reaches up to the full person on top of its chain, so chains are filled in
from the top down; and when the pass is over, the person on top of each chain that was open is full. -/

namespace Downline

namespace Tree

/-- Whoever has become full is the last of a chain that was open, and all of that chain has become full. -/
def FilledFromTop (t t' : Tree) (placeholder : String) : Prop :=
  ∀ y, t.stateOf placeholder y ≠ .full → t'.stateOf placeholder y = .full →
    ∃ k a, t.OpenChain placeholder a y k ∧
      ∀ j z, j < k → t.ancestor? j y = some z → t'.stateOf placeholder z = .full

variable {t t' : Tree} {placeholder : String} {x a start last : PersonId} {j k : Nat}

/-! ### Open chains -/

/-- Whoever holds the placeholder held it before, for re-keying hands out real logins only. -/
theorem Contained.passwordOf_before (hc : t.Contained t' placeholder)
    (hp : t'.passwordOf x = some placeholder) : t.passwordOf x = some placeholder :=
  (passwordOf_congr (hc.person?_of_not_full (not_full_of_password hp))).symm.trans hp

/-- A chain that is open below someone who was full has been open from the beginning. -/
theorem OpenChain.before (hc : t.Contained t' placeholder) (hs : t.stateOf placeholder start = .full)
    (h : t'.OpenChain placeholder start last k) : t.OpenChain placeholder start last k where
  isSome := by rw [← hc.isSome_person?]; exact h.isSome
  first := h.first.congr (fun x => (hc.parentOf x).symm) fun _ _ _ _ _ => Iff.rfl
  full := hs
  interior j x hj hjk hx := by
    rw [← ancestor?_congr hc.parentOf] at hx
    exact hc.passwordOf_before (h.interior j x hj hjk hx)
  some_target := h.some_target.imp_right hc.passwordOf_before

/-- The part of an open chain down to a holder of the placeholder is an open chain. -/
theorem OpenChain.downTo (h : t.OpenChain placeholder start last k) (hjk : j < k)
    (hx : t.ancestor? j last = some x) (hp : t.passwordOf x = some placeholder) :
    t.OpenChain placeholder start x (k - j) where
  isSome := isSome_of_password hp
  first := h.first.of_passed hx hjk
  full := h.full
  interior i y hi hik hy := by
    refine h.interior (j + i) y (by omega) (by omega) ?_
    rw [ancestor?_add, hx, Option.bind_some, hy]
  some_target := .inr hp

/-- The topmost member of an open chain holds the placeholder. -/
theorem OpenChain.password_top (h : t.OpenChain placeholder start last k)
    (hx : t.ancestor? (k - 1) last = some x) : t.passwordOf x = some placeholder := by
  rcases Nat.lt_or_eq_of_le h.first.pos with hk | rfl
  · exact h.interior (k - 1) x (by omega) (by omega) hx
  · cases hx
    exact h.some_target.resolve_left (Nat.lt_irrefl 1)

theorem OpenChain.exists_top (h : t.OpenChain placeholder start last k) :
    ∃ x, t.ancestor? (k - 1) last = some x ∧ t.parentOf x = some start ∧
      t.passwordOf x = some placeholder := by
  obtain ⟨x, hx, hparent⟩ := exists_child_of_ancestor h.first.pos h.first.reached
  exact ⟨x, hx, hparent, h.password_top hx⟩

end Tree

/-- A plan covers the open chain of its candidate: everyone between start and end is a target, every target
is on the chain and holds the placeholder, and only the end is written apart. -/
structure RekeyPlan.Covers (plan : RekeyPlan) (t : Tree) (placeholder : String) (c : ChainCandidate)
    (k : Nat) : Prop where
  chain : t.OpenChain placeholder c.start c.last k
  interior : ∀ j z, 0 < j → j < k → t.ancestor? j c.last = some z → z ∈ plan.targets
  targets : ∀ z ∈ plan.targets,
    ∃ j, j < k ∧ t.ancestor? j c.last = some z ∧ t.passwordOf z = some placeholder
  emptyEnd : ∀ x, plan.emptyEnd = some x → x = c.last

/-- What a task is about to write covers a chain that was open in `t`; and before it writes the end, all the
others on the chain are full. -/
def TaskPhase.Aligned (t t' : Tree) (placeholder : String) (c : ChainCandidate) : TaskPhase → Prop
  | commit plan => ∃ k, plan.Covers t placeholder c k
  | absorb plan last _ => last = c.last ∧ (∃ k, plan.Covers t placeholder c k) ∧
      ∀ z ∈ plan.targets, t'.stateOf placeholder z = .full
  | _ => True

/-- A moment of a pass that began with the tree `t`. -/
structure PassInv (t : Tree) (placeholder : String) (t' : Tree) (crew : Crew) : Prop where
  contained : t.Contained t' placeholder
  top : t.FilledFromTop t' placeholder
  /-- The tasks' own accounts add up to the people who have changed. -/
  written : (t.loginChanges t').length = crew.written
  unbroken : ∀ m ∈ crew, ∃ phase, m.2 = some phase
  starts : ∀ m ∈ crew, t.stateOf placeholder m.1.start = .full
  rightful : ∀ c phase, (c, some phase) ∈ crew → phase.Rightful t placeholder
  aligned : ∀ c phase, (c, some phase) ∈ crew → phase.Aligned t t' placeholder c

variable {t t₁ t₂ : Tree} {placeholder : String} {x a : PersonId} {c : ChainCandidate}
  {phase phase' : TaskPhase} {rest : Crew} {settings : TaskSettings} {failing : IdSet} {k : Nat}
  {plan : RekeyPlan} {ids : List PersonId} {g : WriteGuard} {login : Credentials}

/-! ### What the tasks do -/

/-- A plan made in the middle of a pass covers a chain that was open when the pass began. -/
theorem covers_of_planned (hc : t.Contained t₁ placeholder)
    (hs : t.stateOf placeholder c.start = .full)
    (h : t₁.Planned placeholder c.start c.last k plan) : plan.Covers t placeholder c k where
  chain := h.toOpenChain.before hc hs
  interior j z hj hjk hz := by
    rw [← Tree.ancestor?_congr hc.parentOf] at hz
    exact (h.mem_targets z).mpr ⟨j, hjk, hz, h.interior j z hj hjk hz⟩
  targets z hz := by
    obtain ⟨j, hjk, hj, hp⟩ := (h.mem_targets z).mp hz
    rw [Tree.ancestor?_congr hc.parentOf] at hj
    exact ⟨j, hjk, hj, hc.passwordOf_before hp⟩
  emptyEnd x hx := ((h.emptyEnd x).mp hx).1

theorem full_of_full_write (hf : t₁.stateOf g.placeholder x = .full) :
    (t₁.write ids login g).2.stateOf g.placeholder x = .full :=
  (Tree.stateOf_congr (Tree.person?_write_of_full hf)).trans hf

/-- The write of a plan fills everyone it lists. -/
theorem full_of_target (hc : t.Contained t₁ placeholder)
    (hr : (TaskPhase.commit plan).Rightful t placeholder) (hcov : plan.Covers t placeholder c k)
    (hx : x ∈ plan.targets) :
    (t₁.write plan.targets plan.credentials (.holdsPlaceholder placeholder)).2.stateOf
      placeholder x = .full := by
  by_cases hf : t₁.stateOf placeholder x = .full
  · exact full_of_full_write (g := .holdsPlaceholder placeholder) hf
  · obtain ⟨-, -, -, hp⟩ := hcov.targets x hx
    have hp₁ : t₁.passwordOf x = some placeholder :=
      (Tree.passwordOf_congr (hc.person?_of_not_full hf)).trans hp
    exact Tree.full_write_of_writable (g := .holdsPlaceholder placeholder)
      (Tree.writable_holdsPlaceholder.mpr ⟨hx, hp₁⟩) (hr.1 x hx).password_ne

/-- A write keeps people filled in from the top if everyone it reaches ends a chain that it completes. -/
theorem Tree.FilledFromTop.write (h : t.FilledFromTop t₁ g.placeholder)
    (hw : ∀ y ∈ t₁.writable ids g, ∃ k a, t.OpenChain g.placeholder a y k ∧
      ∀ j z, j < k → t.ancestor? j y = some z →
        (t₁.write ids login g).2.stateOf g.placeholder z = .full) :
    t.FilledFromTop (t₁.write ids login g).2 g.placeholder := by
  intro y hn hf
  by_cases hy : y ∈ t₁.writable ids g
  · exact hw y hy
  · rw [stateOf_congr (person?_write_of_not_writable hy)] at hf
    obtain ⟨k, a, hopen, hall⟩ := h y hn hf
    exact ⟨k, a, hopen, fun j z hjk hz => full_of_full_write (hall j z hjk hz)⟩

theorem Work.full_of_full (hw : Work failing settings c phase t₁ phase' t₂)
    (hf : t₁.stateOf settings.placeholder x = .full) :
    t₂.stateOf settings.placeholder x = .full := by
  cases hw with
  | refused | verify => exact hf
  | commit => exact full_of_full_write (g := .holdsPlaceholder settings.placeholder) hf
  | absorb => exact full_of_full_write (g := .notFull settings.placeholder) hf

/-- What a task goes on to after a call covers the chain of its candidate as well. -/
theorem Work.aligned (hw : Work failing settings c phase t₁ phase' t₂)
    (hc : t.Contained t₁ settings.placeholder)
    (hs : t.stateOf settings.placeholder c.start = .full)
    (hr : phase.Rightful t settings.placeholder)
    (h : phase.Aligned t t₁ settings.placeholder c) :
    phase'.Aligned t t₂ settings.placeholder c := by
  cases hw with
  | refused hrequest =>
    rw [TaskPhase.next_error hrequest]
    trivial
  | verify =>
    refine TaskPhase.afterPath_cases (P := (·.Aligned t t₁ settings.placeholder c)) _
      (fun _ => trivial) fun path plan hpath hplan => ?_
    obtain ⟨k, -, hplanned⟩ := Tree.planned_of_plan hpath hplan
    exact ⟨k, covers_of_planned hc hs hplanned⟩
  | commit =>
    obtain ⟨k, hcov⟩ := h
    refine TaskPhase.afterCommit_cases (P := (·.Aligned t _ settings.placeholder c)) _ _ trivial
      fun last hend => ?_
    exact ⟨hcov.emptyEnd last hend, ⟨k, hcov⟩, fun z hz => full_of_target hc hr hcov hz⟩
  | absorb => trivial

/-! ### The invariant -/

namespace PassInv

theorem start (hs : ∀ m ∈ (rest : Crew), t.stateOf placeholder m.1.start = .full)
    (hv : ∀ m ∈ rest, m.2 = some .verify) : PassInv t placeholder t rest where
  contained := .refl t placeholder
  top := by
    intro y hn hf
    exact absurd hf hn
  written := by rw [t.length_loginChanges_self, Crew.written_of_verify hv]
  unbroken m hm := ⟨_, hv m hm⟩
  starts := hs
  rightful c phase hc := by
    cases hv _ hc
    trivial
  aligned c phase hc := by
    cases hv _ hc
    trivial

/-- The members that stay as they are keep the invariant; the others have to be looked at. -/
theorem of_member (h : PassInv t placeholder t₁ ((c, some phase) ::ₘ rest))
    (hkeep : ∀ x, t₁.stateOf placeholder x = .full → t₂.stateOf placeholder x = .full)
    (hcontained : t.Contained t₂ placeholder) (htop : t.FilledFromTop t₂ placeholder)
    (hwritten : (t.loginChanges t₂).length + phase.written =
      (t.loginChanges t₁).length + phase'.written)
    (hrightful : phase'.Rightful t placeholder) (haligned : phase'.Aligned t t₂ placeholder c) :
    PassInv t placeholder t₂ ((c, some phase') ::ₘ rest) where
  contained := hcontained
  top := htop
  written := by
    have hbefore := h.written
    rw [Crew.written_cons] at hbefore ⊢
    omega
  unbroken := by
    rw [Multiset.forall_mem_cons]
    exact ⟨⟨phase', rfl⟩, fun m hm => h.unbroken m (Multiset.mem_cons_of_mem hm)⟩
  starts := by
    rw [Multiset.forall_mem_cons]
    exact ⟨h.starts (c, some phase) (Multiset.mem_cons_self _ _),
      fun m hm => h.starts m (Multiset.mem_cons_of_mem hm)⟩
  rightful := by
    obtain ⟨-, hrest⟩ := Crew.forall_cons.mp h.rightful
    exact Crew.forall_cons.mpr ⟨hrightful, hrest⟩
  aligned := by
    obtain ⟨-, hrest⟩ := Crew.forall_cons.mp h.aligned
    refine Crew.forall_cons.mpr ⟨haligned, fun d phase₁ hd => ?_⟩
    have hbefore := hrest d phase₁ hd
    cases phase₁ with
    | verify | commit | ended => exact hbefore
    | absorb => exact hbefore.imp_right (And.imp_right fun hall z hz => hkeep z (hall z hz))

/-- The first write of a task fills chains from the top down. -/
theorem top_commit (h : PassInv t placeholder t₁ ((c, some (.commit plan)) ::ₘ rest)) :
    t.FilledFromTop (t₁.write plan.targets plan.credentials (.holdsPlaceholder placeholder)).2
      placeholder := by
  have hmem := Multiset.mem_cons_self (c, some (TaskPhase.commit plan)) rest
  have hr := h.rightful c _ hmem
  obtain ⟨k, hcov⟩ := h.aligned c _ hmem
  refine Tree.FilledFromTop.write (g := .holdsPlaceholder placeholder) h.top fun y hy => ?_
  have hyt : y ∈ plan.targets := (t₁.mem_writable.mp hy).1
  obtain ⟨j, hjk, hj, hp⟩ := hcov.targets y hyt
  refine ⟨k - j, c.start, hcov.chain.downTo hjk hj hp, fun i z hik hz => ?_⟩
  -- All above `y` are targets as well.
  refine full_of_target h.contained hr hcov ?_
  rcases Nat.eq_zero_or_pos i with rfl | hi
  · cases hz
    exact hyt
  · exact hcov.interior (j + i) z (by omega) (by omega)
      (by rw [Tree.ancestor?_add, hj, Option.bind_some, hz])

/-- The second write of a task completes its chain. -/
theorem top_absorb {last : PersonId} {written : Nat}
    (h : PassInv t placeholder t₁ ((c, some (.absorb plan last written)) ::ₘ rest)) :
    t.FilledFromTop (t₁.write [last] plan.credentials (.notFull placeholder)).2 placeholder := by
  have hmem := Multiset.mem_cons_self (c, some (TaskPhase.absorb plan last written)) rest
  have hr : t.Inherits placeholder last plan.credentials := h.rightful c _ hmem
  obtain ⟨rfl, ⟨k, hcov⟩, hall⟩ := h.aligned c _ hmem
  refine Tree.FilledFromTop.write (g := .notFull placeholder) h.top fun y hy => ?_
  obtain rfl : y = c.last := List.mem_singleton.mp (t₁.mem_writable.mp hy).1
  refine ⟨k, c.start, hcov.chain, fun j z hjk hz => ?_⟩
  rcases Nat.eq_zero_or_pos j with rfl | hj
  · cases hz
    exact Tree.full_write_of_writable (g := .notFull placeholder) hy hr.password_ne
  · exact full_of_full_write (g := .notFull placeholder) (hall z (hcov.interior j z hj hjk hz))

/-- A call of a task keeps the invariant. -/
theorem of_work (hfail : ∀ x, x ∉ failing)
    (hw : Work failing settings c phase t₁ phase' t₂)
    (h : PassInv t settings.placeholder t₁ ((c, some phase) ::ₘ rest)) :
    PassInv t settings.placeholder t₂ ((c, some phase') ::ₘ rest) := by
  have hmem := Multiset.mem_cons_self (c, some phase) rest
  obtain ⟨hcontained, hrightful⟩ := hw.contained h.contained (h.rightful c phase hmem)
  have hcount := hw.written h.contained (h.rightful c phase hmem)
    (TaskPhase.endAnswers_of_none hfail phase)
  have hkeep : ∀ x, t₁.stateOf settings.placeholder x = .full →
      t₂.stateOf settings.placeholder x = .full := fun x hf => hw.full_of_full hf
  have haligned := hw.aligned h.contained (h.starts _ hmem) (h.rightful c phase hmem)
    (h.aligned c phase hmem)
  have htop : t.FilledFromTop t₂ settings.placeholder := by
    cases hw with
    | refused | verify => exact h.top
    | commit => exact h.top_commit
    | absorb => exact h.top_absorb
  exact h.of_member hkeep hcontained htop hcount hrightful haligned

end PassInv

/-! ### Progress -/

/-- While its topmost member waits, an open chain stays open. -/
theorem Tree.OpenChain.persists {start last : PersonId} (hc : t.Contained t₁ placeholder)
    (htop : t.FilledFromTop t₁ placeholder) (h : t.OpenChain placeholder start last k)
    (hx : t.ancestor? (k - 1) last = some x) (hn : t₁.stateOf placeholder x ≠ .full) :
    t₁.OpenChain placeholder start last k ∧ t₁.passwordOf x = some placeholder := by
  have hpos := h.first.pos
  -- Nobody below `x` has been filled before it.
  have hkeep : ∀ j y, j < k → t.ancestor? j last = some y → t.passwordOf y = some placeholder →
      t₁.passwordOf y = some placeholder := by
    intro j y hjk hy hp
    have hstill : t₁.stateOf placeholder y ≠ .full := by
      intro hf
      obtain ⟨m, b, hopen, hall⟩ := htop y (not_full_of_password hp) hf
      obtain ⟨rfl, -⟩ := (hopen.nearest hopen.first.pos rfl).unique (h.nearest hjk hy)
      have hup : t.ancestor? (k - 1 - j) y = some x := (ancestor?_from hy (by omega)).symm.trans hx
      exact hn (hall (k - 1 - j) x (by omega) hup)
    exact (Tree.passwordOf_congr (hc.person?_of_not_full hstill)).trans hp
  have hxp := hkeep (k - 1) x (by omega) hx (h.password_top hx)
  refine ⟨⟨by rw [hc.isSome_person?]; exact h.isSome, ?_, hc.full_of_full h.full, ?_,
    h.some_target.imp_right (hkeep 0 last hpos rfl)⟩, hxp⟩
  · exact h.first.congr hc.parentOf fun _ _ _ _ _ => Iff.rfl
  · intro j y hj hjk hy
    rw [ancestor?_congr hc.parentOf] at hy
    exact hkeep j y hjk hy (h.interior j y hj hjk hy)

/-- Either `x` is full, or the task of a candidate is still going to write it. -/
def SeesTo (placeholder : String) (d : ChainCandidate) (x : PersonId) (t' : Tree) (crew : Crew) :
    Prop :=
  t'.stateOf placeholder x = .full ∨ ∃ phase, (d, some phase) ∈ crew ∧
    (phase = .verify ∨ ∃ plan, phase = .commit plan ∧ x ∈ plan.targets)

/-- The task of an open chain does not lose sight of the person on top. -/
theorem SeesTo.of_work {d : ChainCandidate}
    (hopen : t.OpenChain settings.placeholder d.start d.last k) (hk : k ≤ settings.maxDepth.toNat)
    (hx : t.ancestor? (k - 1) d.last = some x) (hfail : ∀ x, x ∉ failing)
    (hw : Work failing settings c phase t₁ phase' t₂)
    (hinv : PassInv t settings.placeholder t₁ ((c, some phase) ::ₘ rest))
    (h : SeesTo settings.placeholder d x t₁ ((c, some phase) ::ₘ rest)) :
    SeesTo settings.placeholder d x t₂ ((c, some phase') ::ₘ rest) := by
  by_cases hf : t₁.stateOf settings.placeholder x = .full
  · exact .inl (hw.full_of_full hf)
  obtain ⟨phase₁, hmem, hphase⟩ := h.resolve_left hf
  rcases Multiset.mem_cons.mp hmem with he | hrest
  · cases he
    have hself := Multiset.mem_cons_self (c, some phase) rest
    cases hw with
    | refused hr hx => exact absurd hx (Call.not_names_failing hfail _)
    | verify =>
      -- The chain is as open as it was, so the task plans to write all of it.
      obtain ⟨hopen₁, hp⟩ := hopen.persists hinv.contained hinv.top hx hf
      obtain ⟨path, plan, hpath, hplan⟩ := hopen₁.exists_plan hk
      obtain ⟨m, -, hplanned⟩ := Tree.planned_of_plan hpath hplan
      obtain ⟨rfl, -⟩ := hplanned.first.unique hopen₁.first
      have htarget : x ∈ plan.targets := by
        refine (hplanned.mem_targets x).mpr ⟨m - 1, ?_, ?_, hp⟩
        · have := hplanned.first.pos
          omega
        · rwa [Tree.ancestor?_congr hinv.contained.parentOf]
      refine .inr ⟨_, Multiset.mem_cons_self _ _, .inr ⟨plan, ?_, htarget⟩⟩
      rw [hpath, TaskPhase.afterPath, hplan]
    | @commit plan =>
      obtain hv | ⟨plan', hplan, hxt⟩ := hphase
      · cases hv
      · cases hplan
        obtain ⟨m, hcov⟩ := hinv.aligned _ _ hself
        exact .inl (full_of_target hinv.contained (hinv.rightful _ _ hself) hcov hxt)
    | absorb =>
      obtain hv | ⟨plan', hplan, -⟩ := hphase
      · cases hv
      · cases hplan
  · exact .inr ⟨phase₁, Multiset.mem_cons_of_mem hrest, hphase⟩

section Pass

variable {cfg : JobConfig} {candidates : List ChainCandidate} {p p' : Pool} {s s' : MemoryStore}
  {moves : List Pool.Move}
  (hfail : ∀ x, x ∉ s.failing)
  (hstarts : ∀ c ∈ candidates, s.tree.stateOf cfg.placeholderPassword c.start = .full)
  (hp : Pool.start cfg candidates = .ok p)
  (hm : Pool.replay? MemoryStore.store moves (p, s) = some (p', s'))
include hfail hstarts hp hm

/-- The invariant holds at every moment of a pass. -/
theorem passInv_of_replay :
    PassInv s.tree cfg.placeholderPassword s'.tree p'.crew ∧ s'.failing = s.failing := by
  have hset : p.settings.placeholder = cfg.placeholderPassword := by
    rw [Pool.settings_of_start hp]
  rw [← hset] at hstarts ⊢
  refine Pool.crew_of_replay (fun hw hI => hI.of_work hfail hw) hm
    (.start (fun m hmem => ?_) fun m hmem => Pool.verify_of_start hp hmem)
  obtain ⟨c, hc, rfl⟩ := (Pool.mem_crew_of_start hp).mp hmem
  exact hstarts c hc

/-- When a pass is over, the person on top of each open chain among its candidates is full. -/
theorem full_of_candidate (ho : p'.isOver = true) {d : ChainCandidate} (hd : d ∈ candidates)
    {k : Nat} (hopen : s.tree.OpenChain cfg.placeholderPassword d.start d.last k)
    (hk : k ≤ cfg.maxDepth.toNat) (hx : s.tree.ancestor? (k - 1) d.last = some x) :
    s'.tree.stateOf cfg.placeholderPassword x = .full := by
  have hstart : SeesTo cfg.placeholderPassword d x s.tree p.crew :=
    .inr ⟨.verify, (Pool.mem_crew_of_start hp).mpr ⟨d, hd, rfl⟩, .inl rfl⟩
  have hinv₀ := passInv_of_replay hfail hstarts hp
    (show Pool.replay? MemoryStore.store [] (p, s) = some (p, s) from rfl)
  have hend := (Pool.crew_of_replay
    (I := fun t crew => PassInv s.tree cfg.placeholderPassword t crew ∧
      SeesTo cfg.placeholderPassword d x t crew) ?_ hm ⟨hinv₀.1, hstart⟩).1.2
  · rcases hend with hf | ⟨phase, hmem, hphase⟩
    · exact hf
    · obtain ⟨result, rfl⟩ := Pool.ended_of_isOver ho hmem
      rcases hphase with hv | ⟨plan, hplan, -⟩
      · cases hv
      · cases hplan
  · intro c phase phase' rest t t' hw h
    obtain ⟨hinv, hsees⟩ := h
    rw [Pool.settings_of_start hp] at hw
    exact ⟨hinv.of_work hfail hw, hsees.of_work hopen hk hx hfail hw hinv⟩

end Pass

end Downline
