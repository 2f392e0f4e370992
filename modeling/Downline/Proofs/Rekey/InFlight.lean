import Downline.Proofs.Rekey.Crew
import Downline.Proofs.Rekey.Runs
import Mathlib.Algebra.Order.BigOperators.Group.Multiset
import Mathlib.Algebra.Order.Group.Nat

/-! How many re-keying tasks are under way at once, whatever the store answers and in whatever order the
dispatcher and the tasks move. A task is in the gauge only while its permit is out, so the permits bound the
gauge as well as the tasks and their calls. -/

namespace Downline

/-- How much of the gauge a task takes up. -/
def TaskStatus.gauged : TaskStatus → Nat
  | ready _ => 1
  | calling .. => 1
  | leaving _ => 1
  | releasing _ => 0
  | finished _ => 0

theorem TaskStatus.gauged_le_permitsOut (status : TaskStatus) :
    status.gauged ≤ status.permitsOut := by
  cases status with
  | ready | calling | leaving => exact Nat.le_refl 1
  | releasing => exact Nat.zero_le 1
  | finished => exact Nat.le_refl 0

namespace Pool

variable {σ : Type} {S : Store σ} {p p' : Pool} {s s' : σ} {n total i : Nat} {c : ChainCandidate}
  {status status' : TaskStatus}

/-! ### Tasks under way -/

/-- The number of started tasks that have not finished. -/
def unfinished (p : Pool) : Nat := p.tasks.countP Task.isUnfinished

/-- The number of store calls of tasks that are outstanding. -/
def outstanding (p : Pool) : Nat := p.tasks.countP Task.isCalling

theorem sum_permitsOut (p : Pool) :
    ((p.tasks : Multiset Task).map (·.status.permitsOut)).sum = p.unfinished := by
  have hlist (l : List Task) : (l.map (·.status.permitsOut)).sum = l.countP Task.isUnfinished := by
    induction l with
    | nil => rfl
    | cons t l ih =>
      obtain ⟨c, status⟩ := t
      have hone : status.permitsOut = if Task.isUnfinished ⟨c, status⟩ then 1 else 0 := by
        cases status <;> rfl
      rw [List.map_cons, List.sum_cons, ih, List.countP_cons, hone, Nat.add_comm]
  rw [Multiset.map_coe, Multiset.sum_coe, hlist, unfinished]

theorem outstanding_le_unfinished (p : Pool) : p.outstanding ≤ p.unfinished := by
  refine List.countP_mono_left fun t _ ht => ?_
  obtain ⟨c, status⟩ := t
  cases status with
  | calling => rfl
  | ready | leaving | releasing | finished => cases ht

/-- Each permit is free, held by the dispatcher, or out with an unfinished task. -/
theorem Ledger.unfinished (hl : p.Ledger n) :
    p.permits + (if p.holding then 1 else 0) + p.unfinished = n := by
  rw [← sum_permitsOut]
  exact hl.permits

/-! ### The gauge -/

/-- The gauge counts the tasks before they leave it, and its peak stays within the permits and within the
number of tasks that have been started. -/
structure Metered (n total : Nat) (p : Pool) : Prop where
  inFlight : p.inFlight = ((p.tasks : Multiset Task).map (·.status.gauged)).sum
  le_peak : p.inFlight ≤ p.peak
  peak_le : p.peak ≤ n
  started : p.peak + p.waiting.length ≤ total
  peak_pos : p.waiting.length < total → 0 < p.peak

theorem Metered.inFlight_le_unfinished (h : p.Metered n total) : p.inFlight ≤ p.unfinished := by
  rw [h.inFlight, ← sum_permitsOut]
  exact Multiset.sum_map_le_sum_map _ _ fun t _ => t.status.gauged_le_permitsOut

theorem gauged_statusAt (phase : TaskPhase) : (statusAt phase).gauged = 1 := by
  cases phase <;> rfl

/-- A task is in the gauge before and after each of its calls. -/
theorem Turn.gauged {settings : TaskSettings} (h : Turn S settings c status s status' s') :
    status.gauged = 1 ∧ status'.gauged = 1 := by
  cases h with
  | entered | halted | broke => exact ⟨rfl, rfl⟩
  | refused | answered | failed => exact ⟨rfl, gauged_statusAt _⟩

/-- A task that moves stays in the gauge or leaves it. -/
theorem Metered.setStatus {permits inFlight : Nat} (h : p.Metered n total)
    (ht : p.tasks[i]? = some ⟨c, status⟩) (hle : status'.gauged ≤ status.gauged)
    (hgauge : inFlight = p.inFlight - (status.gauged - status'.gauged)) :
    Metered n total { p.setStatus i status' with permits, inFlight } := by
  obtain ⟨others, htasks, hmodify, -⟩ := exists_other_tasks ht
  obtain ⟨hcounted, hpeak, hcap, hstarted, hpos⟩ := h
  rw [htasks, Multiset.map_cons, Multiset.sum_cons] at hcounted
  dsimp only at hcounted
  have hle_peak : inFlight ≤ p.peak := by omega
  refine ⟨?_, hle_peak, hcap, hstarted, hpos⟩
  rw [hmodify, Multiset.map_cons, Multiset.sum_cons]
  change inFlight = status'.gauged + _
  omega

theorem metered_of_moved {state state' : Pool × σ} (h : Moved S state state')
    (hl : state.1.Ledger n) (hm : state.1.Metered n total) : state'.1.Metered n total := by
  cases h with
  | acquire => exact ⟨hm.inFlight, hm.le_peak, hm.peak_le, hm.started, hm.peak_pos⟩
  | @launch p s c rest hh hw =>
    -- The dispatcher holds a permit, so the tasks before this one keep at most `n - 1` out.
    have hpermits := hl.unfinished
    simp only [hh, if_true] at hpermits
    have hbefore := hm.inFlight_le_unfinished
    obtain ⟨hcounted, hpeak, hcap, hstarted, -⟩ := hm
    simp only [hw, List.length_cons] at hstarted hbefore hcounted hpeak hcap
    have htasks := coe_append_singleton p.tasks ⟨c, .ready .verify⟩
    have hone : (TaskStatus.ready .verify).gauged = 1 := rfl
    refine ⟨?_, ?_, ?_, ?_, fun _ => ?_⟩
    · simp only [htasks, Multiset.map_cons, Multiset.sum_cons]
      omega
    all_goals dsimp only; omega
  | turn ht hturn =>
    obtain ⟨hbefore, hafter⟩ := hturn.gauged
    exact hm.setStatus ht (by rw [hbefore, hafter]) (by rw [hbefore, hafter]; rfl)
  | leave ht => exact hm.setStatus ht (Nat.zero_le 1) rfl
  | release ht => exact hm.setStatus ht (Nat.le_refl 0) rfl
  | @join p s i c result hh ht =>
    obtain ⟨others, htasks, -, herase⟩ := exists_other_tasks ht
    obtain ⟨hcounted, hpeak, hcap, hstarted, hpos⟩ := hm
    have hzero : (TaskStatus.finished result).gauged = 0 := rfl
    refine ⟨?_, hpeak, hcap, hstarted, hpos⟩
    simp only [htasks, Multiset.map_cons, Multiset.sum_cons, hzero, Nat.zero_add] at hcounted
    simp only [herase]
    exact hcounted

theorem metered_of_start {cfg : JobConfig} {candidates : List ChainCandidate}
    (h : start cfg candidates = .ok p) : p.Metered cfg.maxInFlight candidates.length := by
  obtain ⟨-, rfl⟩ := start_eq_ok_iff.mp h
  exact ⟨rfl, Nat.le_refl 0, Nat.zero_le _, Nat.le_of_eq (Nat.zero_add _),
    fun hlt => absurd hlt (Nat.lt_irrefl _)⟩

/-- The dispatcher has a candidate to start and waits for a permit. -/
structure Waits (p : Pool) : Prop where
  waiting : p.waiting ≠ []
  holding : p.holding = false
  permits : p.permits = 0

/-- While the dispatcher waits, some unfinished task keeps a permit out, and it can move. -/
theorem Ledger.exists_task_of_waits (hl : p.Ledger n) (hn : n ≠ 0) (h : p.Waits) :
    ∃ i t state, p.tasks[i]? = some t ∧ t.isUnfinished = true ∧ t.status.permitsOut = 1 ∧
      step? S (taskMove (S.now s) i t).2 (p, s) = some state := by
  have hout := hl.unfinished
  rw [h.permits, h.holding] at hout
  have hpos : 0 < p.tasks.countP Task.isUnfinished := by
    change _ + p.tasks.countP Task.isUnfinished = n at hout
    simp only [Bool.false_eq_true, if_false] at hout
    omega
  obtain ⟨t, ht, hrun⟩ := List.countP_pos_iff.mp hpos
  obtain ⟨i, hi⟩ := List.mem_iff_getElem?.mp ht
  obtain ⟨state, hstep⟩ := exists_step_of_task (S := S) (s := s) (S.now s) hi
    (hl.goesOn t (Multiset.mem_coe.mpr ht)) h.holding
  have hpermit : t.status.permitsOut = 1 := by
    obtain ⟨c, status⟩ := t
    cases status with
    | ready | calling | leaving | releasing => rfl
    | finished => cases hrun
  exact ⟨i, t, state, hi, hrun, hpermit, hstep⟩

/-- When a pass is over, the gauge is at zero, all permits are back, and the report shows the peak. -/
theorem Metered.of_isOver (hl : p.Ledger n) (hm : p.Metered n total) (ho : p.isOver = true) :
    p.inFlight = 0 ∧ p.permits = n ∧ p.report.peakInFlight ≤ min n total ∧
      (0 < total → 0 < p.report.peakInFlight) := by
  simp only [isOver, Bool.and_eq_true, List.isEmpty_iff, Bool.not_eq_true'] at ho
  obtain ⟨⟨hwaiting, hholding⟩, htasks⟩ := ho
  have hzero : p.inFlight = 0 := by rw [hm.inFlight, htasks]; rfl
  have hback : p.permits = n := by
    have hall := hl.permits
    rw [hholding, htasks] at hall
    exact hall
  have hstarted := hm.started
  have hpos := hm.peak_pos
  rw [hwaiting, List.length_nil] at hstarted hpos
  rw [report_eq]
  exact ⟨hzero, hback, Nat.le_min.mpr ⟨hm.peak_le, hstarted⟩, hpos⟩

/-- The account of the permits and the gauge hold at every moment; all bounds are read off them. -/
theorem metered_of_replay {cfg : JobConfig} {candidates : List ChainCandidate} {moves : List Move}
    (hp : start cfg candidates = .ok p) (hm : replay? S moves (p, s) = some (p', s')) :
    p'.Ledger cfg.maxInFlight ∧ p'.Metered cfg.maxInFlight candidates.length :=
  invariant_of_replay
    (I := fun state => state.1.Ledger cfg.maxInFlight ∧
      state.1.Metered cfg.maxInFlight candidates.length)
    (fun hm h => ⟨(ledger_of_moved hm h.1).1, metered_of_moved hm h.1 h.2⟩) hm
    ⟨(ledger_of_start hp).1, metered_of_start hp⟩

theorem peak_of_dispatched {cfg : JobConfig} {candidates : List ChainCandidate} {pass : RekeyPass}
    (hd : Dispatched S cfg candidates s (.ok pass, s')) :
    pass.report.peakInFlight ≤ min cfg.maxInFlight candidates.length ∧
      (candidates ≠ [] → 1 ≤ pass.report.peakInFlight) := by
  generalize hr : (Except.ok pass : Except Halt RekeyPass) = r at hd
  cases hd with
  | refused => cases hr
  | ended hp hm ho =>
    obtain rfl := eq_of_outcome hr.symm
    obtain ⟨hl, hmeter⟩ := metered_of_replay hp hm
    obtain ⟨-, -, hle, hpos⟩ := hmeter.of_isOver hl ho
    exact ⟨hle, fun hne => hpos (List.length_pos_iff.mpr hne)⟩

end Pool

open Pool (replay? step? taskMove)

/-- A pass over any candidates and any store, whatever its calls come to, by every schedule: at each moment
the unfinished tasks, the gauge, and the outstanding calls of tasks are no more than the permits; if the
dispatcher waits for a permit, an unfinished task has one and can move; and the pass can go on to its end,
where the gauge is at zero and all permits are back. The reported peak is no more than the permits and the
candidates, and not zero if there is a candidate. The job's own pass is among these. -/
theorem tasks_stay_within_permits {σ : Type} (S : Store σ) {cfg : JobConfig}
    (hn : cfg.maxInFlight ≠ 0) (hlimit : cfg.maxInFlight ≤ maxPermits)
    (candidates : List ChainCandidate) (s : σ) :
    (∃ p, Pool.start cfg candidates = .ok p ∧ ∀ moves p' s', replay? S moves (p, s) = some (p', s') →
      p'.unfinished ≤ cfg.maxInFlight ∧ p'.inFlight ≤ cfg.maxInFlight ∧
      p'.outstanding ≤ cfg.maxInFlight ∧
      (p'.Waits → ∃ i t state, p'.tasks[i]? = some t ∧ t.isUnfinished = true ∧
        t.status.permitsOut = 1 ∧ step? S (taskMove (S.now s') i t).2 (p', s') = some state) ∧
      (∃ more state, replay? S more (p', s') = some state ∧ state.1.isOver = true) ∧
      (p'.isOver = true → p'.inFlight = 0 ∧ p'.permits = cfg.maxInFlight)) ∧
    Dispatched S cfg candidates s (dispatch S cfg candidates s) ∧
    ∀ pass s', Dispatched S cfg candidates s (.ok pass, s') →
      pass.report.peakInFlight ≤ min cfg.maxInFlight candidates.length ∧
      (candidates ≠ [] → 1 ≤ pass.report.peakInFlight) := by
  obtain ⟨p, hp⟩ : ∃ p, Pool.start cfg candidates = .ok p :=
    ⟨_, Pool.start_eq_ok_iff.mpr ⟨hlimit, rfl⟩⟩
  refine ⟨⟨p, hp, ?_⟩, dispatched_dispatch hn _ _, ?_⟩
  · intro moves p' s' hm
    obtain ⟨hl, hmeter⟩ := Pool.metered_of_replay hp hm
    have hunfinished : p'.unfinished ≤ cfg.maxInFlight := by
      have := hl.unfinished
      omega
    refine ⟨hunfinished, Nat.le_trans hmeter.inFlight_le_unfinished hunfinished,
      Nat.le_trans p'.outstanding_le_unfinished hunfinished, hl.exists_task_of_waits hn,
      Pool.exists_replay_isOver hn hp hm, fun ho => ?_⟩
    obtain ⟨hzero, hback, -⟩ := hmeter.of_isOver hl ho
    exact ⟨hzero, hback⟩
  · exact fun pass s' hd => Pool.peak_of_dispatched hd

/-- Two permits. -/
def JobConfig.twoAtOnce : JobConfig := { placeholderPassword := "changeme", maxInFlight := 2 }

/-- Three candidates under two permits: two calls are outstanding while the dispatcher waits, and the pass
that the job makes of them reports a peak of two. -/
theorem household_stays_within_permits : ∃ p p' s',
    Pool.start .twoAtOnce (List.replicate 3 ⟨⟨"root"⟩, ⟨"c"⟩⟩) = .ok p ∧
      replay? MemoryStore.store [.acquire, .launch, .acquire, .launch, .enter 0, .enter 1]
        (p, { tree := .household }) = some (p', s') ∧
      p'.outstanding = 2 ∧ p'.outstanding ≤ 2 ∧ p'.unfinished ≤ 2 ∧ p'.inFlight ≤ 2 ∧ p'.Waits ∧
      (∃ (i : Nat) (t : Task), p'.tasks[i]? = some t ∧ t.isUnfinished = true ∧
        t.status.permitsOut = 1) ∧
      ∃ pass s'', dispatch MemoryStore.store .twoAtOnce (List.replicate 3 ⟨⟨"root"⟩, ⟨"c"⟩⟩)
          { tree := .household } = (.ok pass, s'') ∧
        pass.report.peakInFlight = 2 ∧ pass.report.peakInFlight ≤ min 2 3 ∧
        1 ≤ pass.report.peakInFlight := by
  have hn : JobConfig.twoAtOnce.maxInFlight ≠ 0 := by decide
  have hlimit : JobConfig.twoAtOnce.maxInFlight ≤ maxPermits := by decide
  obtain ⟨⟨p, hp, hall⟩, hown, hpeak⟩ := tasks_stay_within_permits MemoryStore.store hn hlimit
    (List.replicate 3 ⟨⟨"root"⟩, ⟨"c"⟩⟩) { tree := .household }
  -- Only where the moves lead is computed. The bounds come from the theorem.
  have hrun : (replay? MemoryStore.store
      [.acquire, .launch, .acquire, .launch, .enter 0, .enter 1]
      (p, { tree := .household })).map (fun state =>
        (state.1.outstanding, state.1.waiting.length, state.1.holding, state.1.permits)) =
        some (2, 1, false, 0) := by
    obtain ⟨-, rfl⟩ := Pool.start_eq_ok_iff.mp hp
    decide +kernel
  obtain ⟨⟨p', s'⟩, hmoves, hstate⟩ := Option.map_eq_some_iff.mp hrun
  simp only [Prod.mk.injEq] at hstate
  obtain ⟨houtstanding, hwaiting, hholding, hpermits⟩ := hstate
  have hwaits : p'.Waits := ⟨List.ne_nil_of_length_eq_add_one hwaiting, hholding, hpermits⟩
  obtain ⟨hunfinished, hgauge, hcalls, hfree, -, -⟩ := hall _ p' s' hmoves
  obtain ⟨i, t, -, ht, hrunning, hpermit, -⟩ := hfree hwaits
  have hreport : (dispatch MemoryStore.store .twoAtOnce (List.replicate 3 ⟨⟨"root"⟩, ⟨"c"⟩⟩)
      { tree := .household }).1.toOption.map (·.report.peakInFlight) = some 2 := by
    decide +kernel
  generalize hd : dispatch MemoryStore.store .twoAtOnce
    (List.replicate 3 ⟨⟨"root"⟩, ⟨"c"⟩⟩) { tree := .household } = out at hown hreport
  obtain ⟨_ | pass, s''⟩ := out
  · cases hreport
  · obtain ⟨hle, hpos⟩ := hpeak pass s'' hown
    exact ⟨p, p', s', hp, hmoves, houtstanding, hcalls, hunfinished, hgauge, hwaits,
      ⟨i, t, ht, hrunning, hpermit⟩, pass, s'', rfl, Option.some.inj hreport, hle,
      hpos (by decide)⟩

end Downline
