import Downline.Proofs.Rekey.Crew
import Downline.Proofs.Rekey.Plan
import Downline.Proofs.Rekey.Runs

/-! A re-keying task between whose calls nothing else happens. It leaves the tree as it was, or it fills
its whole chain: its plan lists each holder of the placeholder once, so its first write counts all of them,
and an empty end is never left out. The relations may form any graph. -/

namespace Downline

namespace Tree

/-- What a task makes of the path that it finds in a tree: a plan, or a reason to leave the chain alone. -/
def verdict (t : Tree) (settings : TaskSettings) (c : ChainCandidate) :
    Except SkipReason RekeyPlan :=
  match t.downwardPath? c.start c.last settings.maxDepth with
  | none => .error .pathGone
  | some path => planRekey path settings.placeholder

/-- Of the first `k` people on the way up from `last`, itself first, those who are not full. -/
def heirs (t : Tree) (placeholder : String) (k : Nat) (last : PersonId) : List PersonId :=
  (t.walk k last).filter fun x => t.stateOf placeholder x != .full

/-- The heirs on the way from `last` up to `start` have taken over the login of the start, and nothing else
has changed. -/
structure ChainFilled (t t' : Tree) (placeholder : String) (start last : PersonId) (k : Nat) :
    Prop where
  relations : t'.relations = t.relations
  heir : ∀ x ∈ t.heirs placeholder k last, ∃ r login, t.person? x = some r ∧
    t.credentialsOf start = some login ∧ t'.person? x = some (r.holding login)
  other : ∀ x, x ∉ t.heirs placeholder k last → t'.person? x = t.person? x

variable {t : Tree} {placeholder : String} {settings : TaskSettings} {c : ChainCandidate}
  {start last x y : PersonId} {k : Nat} {plan : RekeyPlan}

/-! ### Verdicts -/

theorem afterPath_verdict (t : Tree) (settings : TaskSettings) (c : ChainCandidate) :
    TaskPhase.afterPath settings (.ok (t.downwardPath? c.start c.last settings.maxDepth)) =
      match t.verdict settings c with
      | .error reason => .ended (.ok (.skipped reason))
      | .ok plan => .commit plan := by
  unfold verdict
  cases t.downwardPath? c.start c.last settings.maxDepth with
  | none => rfl
  | some path =>
    unfold TaskPhase.afterPath
    cases planRekey path settings.placeholder <;> rfl

/-- A plan is one for an open chain within reach, and lists its targets once each. -/
theorem planned_of_verdict (h : t.verdict settings c = .ok plan) :
    plan.targets.Nodup ∧ ∃ k, k ≤ settings.maxDepth.toNat ∧
      t.Planned settings.placeholder c.start c.last k plan := by
  unfold verdict at h
  split at h
  · cases h
  next path hpath => exact ⟨nodup_targets hpath h, planned_of_plan hpath h⟩

/-! ### Heirs -/

theorem mem_heirs : x ∈ t.heirs placeholder k last ↔
    (∃ j, j < k ∧ t.ancestor? j last = some x) ∧ t.stateOf placeholder x ≠ .full := by
  rw [heirs, List.mem_filter, mem_walk, bne_iff_ne]

namespace Planned

variable (h : t.Planned placeholder start last k plan)
include h

/-- Those whom a plan lists, and the end that it sets apart, are the heirs. -/
theorem mem_heirs_iff : x ∈ t.heirs placeholder k last ↔
    x ∈ plan.targets ∨ plan.emptyEnd = some x := by
  rw [mem_heirs, h.mem_targets, h.emptyEnd]
  constructor
  · intro hh
    obtain ⟨⟨j, hjk, hx⟩, hfull⟩ := hh
    by_cases hp : t.passwordOf x = some placeholder
    · exact .inl ⟨j, hjk, hx, hp⟩
    · -- Everyone above the end holds the placeholder, so this is the end.
      rcases Nat.eq_zero_or_pos j with rfl | hj
      · cases hx
        have hempty : t.stateOf placeholder last = .empty := by
          by_contra hne
          exact hp (passwordOf_of_states hne hfull)
        exact .inr ⟨rfl, hp, hempty⟩
      · exact absurd (h.interior j x hj hjk hx) hp
  · intro hh
    rcases hh with ⟨j, hjk, hx, hp⟩ | ⟨rfl, -, hempty⟩
    · exact ⟨⟨j, hjk, hx⟩, not_full_of_password hp⟩
    · refine ⟨⟨0, h.first.pos, rfl⟩, ?_⟩
      rw [hempty]
      exact CredentialState.noConfusion

/-- There are as many heirs as targets, and one more if an end is set apart. -/
theorem length_heirs (hn : plan.targets.Nodup) : (t.heirs placeholder k last).length =
    plan.targets.length + plan.emptyEnd.toList.length := by
  have hall : (plan.targets ++ plan.emptyEnd.toList).Nodup := by
    refine List.nodup_append'.mpr ⟨hn, ?_, ?_⟩
    · cases plan.emptyEnd <;> simp
    · intro x hx hend
      exact h.not_target_of_emptyEnd (Option.mem_toList.mp hend) hx
  have hheirs : (t.heirs placeholder k last).Nodup := h.first.nodup_walk.filter _
  rw [← List.length_append]
  refine ((List.perm_ext_iff_of_nodup hheirs hall).mpr fun x => ?_).length_eq
  rw [h.mem_heirs_iff, List.mem_append, Option.mem_toList]

/-- The first write counts every target. -/
theorem fst_write_targets (hn : plan.targets.Nodup) :
    (t.write plan.targets plan.credentials (.holdsPlaceholder placeholder)).1 =
      plan.targets.length :=
  fst_write_of_passwords hn fun _ hx => h.passwordOf_target hx

theorem mem_writable_targets :
    x ∈ t.writable plan.targets (.holdsPlaceholder placeholder) ↔ x ∈ plan.targets := by
  rw [writable_holdsPlaceholder]
  exact ⟨And.left, fun hx => ⟨hx, h.passwordOf_target hx⟩⟩

theorem person?_write_targets (hx : x ∈ plan.targets) : ∃ r, t.person? x = some r ∧
    (t.write plan.targets plan.credentials (.holdsPlaceholder placeholder)).2.person? x =
      some (r.holding plan.credentials) := by
  obtain ⟨r, hr⟩ := Option.isSome_iff_exists.mp (isSome_of_password (h.passwordOf_target hx))
  exact ⟨r, hr, person?_write_of_writable hr (h.mem_writable_targets.mpr hx)⟩

theorem person?_write_other (hx : x ∉ plan.targets) :
    (t.write plan.targets plan.credentials (.holdsPlaceholder placeholder)).2.person? x =
      t.person? x :=
  person?_write_of_not_writable (mt h.mem_writable_targets.mp hx)

/-- Where no end is set apart, the first write fills the chain. -/
theorem chainFilled_commit (hend : plan.emptyEnd = none) : t.ChainFilled
    (t.write plan.targets plan.credentials (.holdsPlaceholder placeholder)).2 placeholder start last
      k := by
  have hheir (x : PersonId) : x ∈ t.heirs placeholder k last ↔ x ∈ plan.targets := by
    rw [h.mem_heirs_iff, hend]
    exact or_iff_left nofun
  refine ⟨t.relations_write _ _ _, fun x hx => ?_, fun x hx => ?_⟩
  · obtain ⟨r, hr, hwritten⟩ := h.person?_write_targets ((hheir x).mp hx)
    exact ⟨r, _, hr, h.credentials, hwritten⟩
  · exact h.person?_write_other (mt (hheir x).mpr hx)

/-- The second write reaches the end that is set apart. -/
theorem mem_writable_end (hend : plan.emptyEnd = some y) :
    x ∈ (t.write plan.targets plan.credentials (.holdsPlaceholder placeholder)).2.writable [y]
      (.notFull placeholder) ↔ x = y := by
  have hsame := h.person?_write_other (h.not_target_of_emptyEnd hend)
  obtain ⟨rfl, -, hempty⟩ := (h.emptyEnd y).mp hend
  rw [writable_notFull, List.mem_singleton]
  refine and_iff_left_of_imp ?_
  rintro rfl
  rw [stateOf_congr hsame, hsame, hempty]
  exact ⟨h.isSome, CredentialState.noConfusion⟩

theorem fst_write_end (hend : plan.emptyEnd = some y) :
    ((t.write plan.targets plan.credentials (.holdsPlaceholder placeholder)).2.write [y]
      plan.credentials (.notFull placeholder)).1 = 1 := by
  rw [fst_write]
  refine ((List.perm_ext_iff_of_nodup (nodup_writable _ _ _) (List.nodup_singleton y)).mpr
    fun x => ?_).length_eq
  rw [h.mem_writable_end hend, List.mem_singleton]

/-- Where an end is set apart, the two writes fill the chain. -/
theorem chainFilled_absorb (hend : plan.emptyEnd = some y) : t.ChainFilled
    ((t.write plan.targets plan.credentials (.holdsPlaceholder placeholder)).2.write [y]
      plan.credentials (.notFull placeholder)).2 placeholder start last k := by
  have hapart := h.not_target_of_emptyEnd hend
  have hheir (x : PersonId) : x ∈ t.heirs placeholder k last ↔ x ∈ plan.targets ∨ x = y := by
    rw [h.mem_heirs_iff, hend, Option.some.injEq, eq_comm (a := y)]
  have hother (x : PersonId) (hx : x ≠ y) := person?_write_of_not_writable
    (c := plan.credentials) (mt (h.mem_writable_end (x := x) hend).mp hx)
  refine ⟨?_, fun x hx => ?_, fun x hx => ?_⟩
  · rw [relations_write, relations_write]
  · rcases (hheir x).mp hx with htarget | rfl
    · obtain ⟨r, hr, hwritten⟩ := h.person?_write_targets htarget
      refine ⟨r, _, hr, h.credentials, ?_⟩
      rw [hother x (ne_of_mem_of_not_mem htarget hapart), hwritten]
    · obtain ⟨rfl, -, -⟩ := (h.emptyEnd x).mp hend
      obtain ⟨r, hr⟩ := Option.isSome_iff_exists.mp h.isSome
      refine ⟨r, _, hr, h.credentials, ?_⟩
      refine person?_write_of_writable ?_ ((h.mem_writable_end hend).mpr rfl)
      rw [h.person?_write_other hapart, hr]
  · obtain ⟨htarget, hne⟩ := not_or.mp (mt (hheir x).mpr hx)
    rw [hother x hne, h.person?_write_other htarget]

end Planned

end Tree

/-! ### Phases -/

/-- How a task that nothing disturbs leaves the tree that it found: as it was, or with the chain filled. -/
def TaskOutcome.Settles (settings : TaskSettings) (c : ChainCandidate) (t t' : Tree) :
    TaskOutcome → Prop
  | skipped reason => t.verdict settings c = .error reason ∧ t' = t
  | rekeyed written => (∃ plan, t.verdict settings c = .ok plan) ∧
      ∃ k, k ≤ settings.maxDepth.toNat ∧ t.FirstAbove (· = c.start) k c.last c.start ∧
        (t.walk k c.last).Nodup ∧
        written = (t.heirs settings.placeholder k c.last).length ∧ 1 ≤ written ∧
        t.ChainFilled t' settings.placeholder c.start c.last k

/-- Where a task stands that nothing has disturbed since it began in the tree `t`. -/
def TaskPhase.Undisturbed (settings : TaskSettings) (c : ChainCandidate) (t t' : Tree) :
    TaskPhase → Prop
  | verify => t' = t
  | commit plan => t.verdict settings c = .ok plan ∧ t' = t
  | absorb plan last written => t.verdict settings c = .ok plan ∧ plan.emptyEnd = some last ∧
      written = plan.targets.length ∧
      t' = (t.write plan.targets plan.credentials (.holdsPlaceholder settings.placeholder)).2
  | ended (.ok outcome) => outcome.Settles settings c t t'
  | ended (.error _) => False

variable {t t' : Tree} {settings : TaskSettings} {c : ChainCandidate} {phase phase' : TaskPhase}
  {plan : RekeyPlan} {k : Nat} {written : Nat} {failing : IdSet}

/-- A task has settled its chain once its writes have filled it and counted every heir. -/
theorem TaskOutcome.settles_rekeyed (hplan : t.verdict settings c = .ok plan)
    (hk : k ≤ settings.maxDepth.toNat) (h : t.Planned settings.placeholder c.start c.last k plan)
    (hn : plan.targets.Nodup)
    (hwritten : written = plan.targets.length + plan.emptyEnd.toList.length)
    (hfilled : t.ChainFilled t' settings.placeholder c.start c.last k) :
    (rekeyed written).Settles settings c t t' := by
  have hpos := List.length_pos_iff.mpr h.targets_ne_nil
  refine ⟨⟨plan, hplan⟩, k, hk, h.first, h.first.nodup_walk, ?_, by omega, hfilled⟩
  rw [hwritten, h.length_heirs hn]

/-- One call of a task, between any two of which nothing else happens. -/
theorem Work.undisturbed {t₁ t₂ : Tree} (hfail : ∀ x, x ∉ failing)
    (hw : Work failing settings c phase t₁ phase' t₂) (h : phase.Undisturbed settings c t t₁) :
    phase'.Undisturbed settings c t t₂ := by
  cases hw with
  | refused hr hx => exact absurd hx (Call.not_names_failing hfail _)
  | verify =>
    obtain rfl : t₁ = t := h
    rw [Tree.afterPath_verdict]
    cases hv : t₁.verdict settings c with
    | error reason => exact ⟨hv, rfl⟩
    | ok plan => exact ⟨hv, rfl⟩
  | @commit plan =>
    obtain ⟨hv, rfl⟩ := h
    obtain ⟨hn, k, hk, hplanned⟩ := Tree.planned_of_verdict hv
    have hcount := hplanned.fst_write_targets hn
    rw [TaskPhase.afterCommit, hcount]
    cases hend : plan.emptyEnd with
    | some last =>
      simp only [if_true]
      exact ⟨hv, hend, rfl, rfl⟩
    | none =>
      refine TaskOutcome.settles_rekeyed hv hk hplanned hn ?_ (hplanned.chainFilled_commit hend)
      rw [hend]
      rfl
  | @absorb plan last written =>
    obtain ⟨hv, hend, rfl, rfl⟩ := h
    obtain ⟨hn, k, hk, hplanned⟩ := Tree.planned_of_verdict hv
    rw [hplanned.fst_write_end hend]
    refine TaskOutcome.settles_rekeyed hv hk hplanned hn ?_ (hplanned.chainFilled_absorb hend)
    rw [hend]
    rfl

theorem TaskPhase.Undisturbed.exists_outcome {result : Except StoreError TaskOutcome}
    (h : (ended result).Undisturbed settings c t t') :
    ∃ outcome, result = .ok outcome ∧ outcome.Settles settings c t t' := by
  cases result with
  | error e => exact h.elim
  | ok outcome => exact ⟨outcome, rfl, h⟩

/-! ### The task by itself -/

section Memory

variable {s s' : MemoryStore} (hfail : ∀ x, x ∉ s.failing)
include hfail

theorem exists_advance (h : phase.Undisturbed settings c t s.tree) :
    ∃ phase' s', phase.advance MemoryStore.store settings c s = (.ok phase', s') ∧
      s'.failing = s.failing ∧ phase'.Undisturbed settings c t s'.tree ∧
      phase'.callsLeft ≤ phase.callsLeft - 1 := by
  unfold TaskPhase.advance
  cases hr : phase.request? settings c with
  | none =>
    -- A task that makes no call has none left.
    refine ⟨phase, s, rfl, rfl, h, ?_⟩
    by_contra hcalls
    have hleft : 0 < phase.callsLeft := by omega
    obtain ⟨r, hr'⟩ := TaskPhase.exists_request hleft settings c
    rw [hr] at hr'
    cases hr'
  | some r =>
    have hfailing : (s.arrive.perform r.call).2.leave.failing = s.failing :=
      MemoryStore.failing_perform (s := s.arrive) r.call
    have hless (answer : Except StoreError r.call.Answer) :
        (r.next answer).callsLeft ≤ phase.callsLeft - 1 := by
      have := TaskPhase.callsLeft_next hr answer
      omega
    simp only [MemoryStore.call_eq]
    rcases MemoryStore.work_of_perform (s := s.arrive) hr with ⟨a, ha, hw⟩ | ⟨e, he, hw⟩
    · rw [ha]
      exact ⟨_, _, rfl, hfailing, hw.undisturbed hfail h, hless _⟩
    · rw [he]
      exact ⟨_, _, rfl, hfailing, hw.undisturbed hfail h, hless _⟩

/-- As many calls as are left bring a task to its end. -/
theorem exists_go {n : Nat} (hn : phase.callsLeft ≤ n)
    (h : phase.Undisturbed settings c t s.tree) :
    ∃ outcome s', rekeyChain.go MemoryStore.store settings c n phase s =
        (.ok (.ended (.ok outcome)), s') ∧
      s'.failing = s.failing ∧ outcome.Settles settings c t s'.tree := by
  induction n generalizing phase s with
  | zero =>
    cases phase with
    | verify | commit | absorb => exact absurd hn (Nat.not_succ_le_zero _)
    | ended result =>
      obtain ⟨outcome, rfl, hsettles⟩ := h.exists_outcome
      exact ⟨outcome, s, rfl, rfl, hsettles⟩
  | succ n ih =>
    obtain ⟨phase', s', hadvance, hfailing, h', hless⟩ := exists_advance hfail h
    have hfail' : ∀ x, x ∉ s'.failing := by rwa [hfailing]
    obtain ⟨outcome, s'', hgo, hfailing', hsettles⟩ := ih hfail' (by omega) h'
    refine ⟨outcome, s'', ?_, hfailing'.trans hfailing, hsettles⟩
    rw [rekeyChain.go, hadvance]
    exact hgo

/-- A task by itself ends in good order. -/
theorem exists_rekeyChain (settings : TaskSettings) (c : ChainCandidate) :
    ∃ outcome s', rekeyChain MemoryStore.store settings c s = (.ok (.ended (.ok outcome)), s') ∧
      s'.failing = s.failing ∧ outcome.Settles settings c s.tree s'.tree := by
  have hstart : TaskPhase.verify.Undisturbed settings c s.tree s.tree := rfl
  exact exists_go hfail (Nat.le_refl 3) hstart

/-- A pass over one candidate settles it as its task by itself does, whatever the schedule. -/
theorem settles_of_dispatched {cfg : JobConfig} (hlimit : cfg.maxInFlight ≤ maxPermits)
    {r : Except Halt RekeyPass} (h : Dispatched MemoryStore.store cfg [c] s (r, s')) :
    ∃ pass outcome, r = .ok pass ∧ pass.settled = [⟨c, .returned (.ok outcome)⟩] ∧
      s'.failing = s.failing ∧
      outcome.Settles ⟨cfg.placeholderPassword, cfg.maxDepth⟩ c s.tree s'.tree := by
  obtain ⟨p, p', moves, hp, hm, ho, rfl⟩ := h.exists_schedule hlimit
  have hsettings := Pool.settings_of_start hp
  have hstart : p.crew = {(c, some .verify)} := by
    obtain ⟨-, rfl⟩ := Pool.start_eq_ok_iff.mp hp
    simp [Pool.crew]
  obtain ⟨⟨phase, hcrew, hphase⟩, hfailing⟩ := Pool.crew_of_replay
    (I := fun t crew => ∃ phase : TaskPhase, crew = {(c, some phase)} ∧
      phase.Undisturbed p.settings c s.tree t)
    (fun hw hI => by
      obtain ⟨phase, hcrew, hphase⟩ := hI
      obtain ⟨he, rfl⟩ := (Multiset.singleton_eq_cons_iff _).mp hcrew.symm
      cases he
      exact ⟨_, rfl, hw.undisturbed hfail hphase⟩) hm ⟨.verify, hstart, rfl⟩
  -- The pass is over, so its one task has ended and been taken note of.
  have hmem : (c, some phase) ∈ p'.crew := by
    rw [hcrew]
    exact Multiset.mem_singleton_self _
  obtain ⟨result, rfl⟩ := Pool.ended_of_isOver ho hmem
  obtain ⟨outcome, rfl, hsettles⟩ := hphase.exists_outcome
  have hunbroken : ∀ m ∈ p'.crew, ∃ phase, m.2 = some phase := by
    intro m hm
    rw [hcrew, Multiset.mem_singleton] at hm
    exact ⟨_, by rw [hm]⟩
  rw [Pool.crew_of_isOver ho, Multiset.map_coe, Multiset.coe_eq_singleton,
    List.map_eq_singleton_iff] at hcrew
  obtain ⟨⟨c', result⟩, hsettled, he⟩ := hcrew
  have hd : (⟨c', result⟩ : Settled) = ⟨c, .returned (.ok outcome)⟩ := by
    cases result with
    | broke reason => cases he
    | returned result =>
      cases he
      rfl
  refine ⟨_, outcome, Pool.outcome_of_unbroken ho hunbroken, ?_, hfailing, hsettings ▸ hsettles⟩
  rw [hsettled, hd]
  rfl

end Memory

/-- With no failing ids, a re-keying task between whose calls nothing else happens leaves the tree as it
was, or it fills its chain: whoever stands below the start on the way up from the end and is not full takes
over the login of the start, and all of them are counted. The first write counts the whole list of targets.
A pass over that one candidate comes to the same, whatever the schedule. -/
theorem lone_task_fills_its_chain (s : MemoryStore) (hfail : ∀ x, x ∉ s.failing)
    (settings : TaskSettings) (c : ChainCandidate) :
    (∃ outcome s', rekeyChain MemoryStore.store settings c s =
        (.ok (.ended (.ok outcome)), s') ∧ s'.failing = s.failing ∧
      outcome.Settles settings c s.tree s'.tree) ∧
    (∀ plan s₁,
      TaskPhase.verify.advance MemoryStore.store settings c s = (.ok (.commit plan), s₁) →
        (MemoryStore.store.call (.setCredentials plan.targets plan.credentials
          (.holdsPlaceholder settings.placeholder)) s₁).1 = .ok plan.targets.length) ∧
    ∀ cfg : JobConfig, cfg.placeholderPassword = settings.placeholder →
      cfg.maxDepth = settings.maxDepth → cfg.maxInFlight ≤ maxPermits → ∀ r s',
      Dispatched MemoryStore.store cfg [c] s (r, s') →
        ∃ pass outcome, r = .ok pass ∧ pass.settled = [⟨c, .returned (.ok outcome)⟩] ∧
          s'.failing = s.failing ∧ outcome.Settles settings c s.tree s'.tree := by
  refine ⟨exists_rekeyChain hfail settings c, fun plan s₁ hadvance => ?_, ?_⟩
  · have hstart : TaskPhase.verify.Undisturbed settings c s.tree s.tree := rfl
    obtain ⟨phase, s₂, hadvance', hfailing, hphase, -⟩ := exists_advance hfail hstart
    rw [hadvance] at hadvance'
    cases hadvance'
    obtain ⟨hplan, htree⟩ := hphase
    obtain ⟨hn, k, -, hplanned⟩ := Tree.planned_of_verdict hplan
    rcases MemoryStore.perform_setCredentials_cases (s := s₁.arrive) plan.targets plan.credentials
      (.holdsPlaceholder settings.placeholder) with ⟨hok, -⟩ | ⟨-, -, -, x, -, hx⟩
    · have hsame : s₁.arrive.tree = s.tree := htree
      rw [MemoryStore.call_eq, hok, hsame, hplanned.fst_write_targets hn]
    · have hnot : x ∉ s₁.failing := by
        rw [hfailing]
        exact hfail x
      exact absurd hx hnot
  · intro cfg hplaceholder hdepth hlimit r s' hd
    have h := settles_of_dispatched hfail hlimit hd
    rwa [hplaceholder, hdepth] at h

/-- The household while its last member has no login. -/
def Tree.newcomers : Tree := household.setLogin ⟨"c"⟩ none

theorem settles_newcomers {outcome : TaskOutcome} {t' : Tree}
    (h : outcome.Settles ⟨"changeme", 2⟩ ⟨⟨"root"⟩, ⟨"c"⟩⟩ Tree.newcomers t') :
    outcome = .rekeyed 2 ∧ t'.credentialsOf ⟨"c"⟩ = some ⟨"boss", "real"⟩ := by
  have hfirst : Tree.newcomers.FirstAbove (· = ⟨"root"⟩) 2 ⟨"c"⟩ ⟨"root"⟩ :=
    .further (p := ⟨"b"⟩) (by decide +kernel) (by decide) (.of_parent (by decide +kernel) rfl)
  have hheirs : Tree.newcomers.heirs "changeme" 2 ⟨"c"⟩ = [⟨"c"⟩, ⟨"b"⟩] := by decide +kernel
  have hreal : Tree.newcomers.credentialsOf ⟨"root"⟩ = some ⟨"boss", "real"⟩ := by decide +kernel
  have hverdict : (Tree.newcomers.verdict ⟨"changeme", 2⟩ ⟨⟨"root"⟩, ⟨"c"⟩⟩).toOption.isSome := by
    decide +kernel
  cases outcome with
  | skipped reason =>
    rw [h.1] at hverdict
    cases hverdict
  | rekeyed written =>
    obtain ⟨-, k, -, hk, -, rfl, -, hfilled⟩ := h
    obtain ⟨rfl, -⟩ := hk.unique hfirst
    have hc : (⟨"c"⟩ : PersonId) ∈ Tree.newcomers.heirs "changeme" 2 ⟨"c"⟩ := by
      rw [hheirs]
      exact List.mem_cons_self
    obtain ⟨r, login, -, hlogin, hholding⟩ := hfilled.heir _ hc
    rw [hreal] at hlogin
    cases hlogin
    exact ⟨by rw [hheirs]; rfl, by rw [Tree.credentialsOf_of_person hholding]; rfl⟩

/-- The last of the newcomers is an empty end, and is written along with the chain. -/
theorem lone_task_fills_newcomers : ∃ s' pass,
    rekeyChain MemoryStore.store ⟨"changeme", 2⟩ ⟨⟨"root"⟩, ⟨"c"⟩⟩ { tree := .newcomers } =
      (.ok (.ended (.ok (.rekeyed 2))), s') ∧
    s'.tree.credentialsOf ⟨"c"⟩ = some ⟨"boss", "real"⟩ ∧
    (dispatch MemoryStore.store { placeholderPassword := "changeme", maxDepth := 2 }
        [⟨⟨"root"⟩, ⟨"c"⟩⟩] { tree := .newcomers }).1 = .ok pass ∧
    pass.settled = [⟨⟨⟨"root"⟩, ⟨"c"⟩⟩, .returned (.ok (.rekeyed 2))⟩] := by
  obtain ⟨⟨outcome, s', hrun, -, hsettles⟩, -, hdispatched⟩ := lone_task_fills_its_chain
    { tree := .newcomers } (fun x => Std.TreeSet.not_mem_emptyc) ⟨"changeme", 2⟩
    ⟨⟨"root"⟩, ⟨"c"⟩⟩
  obtain ⟨rfl, hc⟩ := settles_newcomers hsettles
  have hown : Dispatched MemoryStore.store { placeholderPassword := "changeme", maxDepth := 2 }
      [⟨⟨"root"⟩, ⟨"c"⟩⟩] { tree := .newcomers } _ := dispatched_dispatch (by decide) _ _
  obtain ⟨pass, outcome, hpass, hsettled, -, hsettles⟩ :=
    hdispatched _ rfl rfl (by decide) _ _ hown
  obtain ⟨rfl, -⟩ := settles_newcomers hsettles
  exact ⟨s', pass, hrun, hc, hpass, hsettled⟩

end Downline
