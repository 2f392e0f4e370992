import Downline.Proofs.Program
import Downline.Rekey.Schedule
import Mathlib.Data.Multiset.AddSub
import Mathlib.Tactic.Common

/-! The moves of a re-keying pass, one case a kind of move, over any store. Whatever calls may do to the
store without breaking an invariant, no schedule of a pass breaks it. -/

namespace Downline

/-! ### Where an answer leads -/

namespace TaskPhase

variable {P : TaskPhase → Prop}

/-- After its path was read a task has left its chain alone, or it has a plan for that path. -/
theorem afterPath_cases {settings : TaskSettings} (path : Option (List PathNode))
    (hskipped : ∀ reason, P (.ended (.ok (.skipped reason))))
    (hcommit : ∀ nodes plan, path = some nodes →
      planRekey nodes settings.placeholder = .ok plan → P (.commit plan)) :
    P (.afterPath settings (.ok path)) := by
  cases path with
  | none => exact hskipped _
  | some nodes =>
    simp only [afterPath]
    split
    next reason _ => exact hskipped reason
    next plan hplan => exact hcommit nodes plan rfl hplan

/-- After its first write a task has re-keyed its chain, or the end of it is still to be written. -/
theorem afterCommit_cases (plan : RekeyPlan) (written : Nat)
    (hrekeyed : P (.ended (.ok (.rekeyed written))))
    (habsorb : ∀ last, plan.emptyEnd = some last → P (.absorb plan last written)) :
    P (.afterCommit plan (.ok written)) := by
  simp only [afterCommit]
  split
  next last hend =>
    split
    · exact habsorb last hend
    · exact hrekeyed
  next => exact hrekeyed

end TaskPhase

/-! ### Moves -/

/-- A list with one place singled out: what stands there, and the others. -/
theorem exists_others {α : Type} {l : List α} {i : Nat} {a : α} (h : l[i]? = some a) :
    ∃ others : Multiset α, (l : Multiset α) = a ::ₘ others ∧
      (∀ f, (l.modify i f : Multiset α) = f a ::ₘ others) ∧ (l.eraseIdx i : Multiset α) = others := by
  obtain ⟨hi, rfl⟩ := List.getElem?_eq_some_iff.mp h
  have hl : l = l.take i ++ l[i] :: l.drop (i + 1) := by simp
  have hother : l.eraseIdx i = l.take i ++ l.drop (i + 1) := List.eraseIdx_eq_take_drop_succ l i
  refine ⟨l.eraseIdx i, ?_, fun f => ?_, rfl⟩
  · rw [hother, Multiset.cons_coe, Multiset.coe_eq_coe]
    conv_lhs => rw [hl]
    exact List.perm_middle
  · rw [hother, List.modify_eq_take_cons_drop hi, Multiset.cons_coe, Multiset.coe_eq_coe]
    exact List.perm_middle

namespace Pool

variable {σ : Type}

theorem coe_append_singleton {α : Type} (l : List α) (a : α) :
    ((l ++ [a] : List α) : Multiset α) = a ::ₘ (l : Multiset α) := by
  rw [Multiset.cons_coe, Multiset.coe_eq_coe]
  exact List.perm_append_singleton _ _

theorem exists_other_tasks {p : Pool} {i : Nat} {c : ChainCandidate} {status : TaskStatus}
    (ht : p.tasks[i]? = some ⟨c, status⟩) : ∃ others : Multiset Task,
      (p.tasks : Multiset Task) = ⟨c, status⟩ ::ₘ others ∧
        (∀ status', ((p.setStatus i status').tasks : Multiset Task) = ⟨c, status'⟩ ::ₘ others) ∧
        (p.tasks.eraseIdx i : Multiset Task) = others := by
  obtain ⟨others, htasks, hmodify, herase⟩ := exists_others ht
  exact ⟨others, htasks, fun status' => hmodify fun t => { t with status := status' }, herase⟩

/-! ### One move -/

/-- What a store call makes of the task that makes it. -/
inductive Turn (S : Store σ) (settings : TaskSettings) (c : ChainCandidate) :
    TaskStatus → σ → TaskStatus → σ → Prop where
  | entered {phase r ticket s s'} (hr : phase.request? settings c = some r)
      (hs : S.enter r.call s = (.ok ticket, s')) :
      Turn S settings c (.ready phase) s (.calling phase ticket) s'
  | refused {phase r e s s'} (hr : phase.request? settings c = some r)
      (hs : S.enter r.call s = (.error (.error e), s')) :
      Turn S settings c (.ready phase) s (statusAt (r.next (.error e))) s'
  | halted {phase r h s s'} (hr : phase.request? settings c = some r)
      (hs : S.enter r.call s = (.error (.halt h), s')) :
      Turn S settings c (.ready phase) s (.leaving (.broke h)) s'
  | answered {phase r ticket a s s'} (hr : phase.request? settings c = some r)
      (hs : S.finish r.call ticket s = (.ok a, s')) :
      Turn S settings c (.calling phase ticket) s (statusAt (r.next (.ok a))) s'
  | failed {phase r ticket e s s'} (hr : phase.request? settings c = some r)
      (hs : S.finish r.call ticket s = (.error (.error e), s')) :
      Turn S settings c (.calling phase ticket) s (statusAt (r.next (.error e))) s'
  | broke {phase r ticket h s s'} (hr : phase.request? settings c = some r)
      (hs : S.finish r.call ticket s = (.error (.halt h), s')) :
      Turn S settings c (.calling phase ticket) s (.leaving (.broke h)) s'

/-- The kinds of moves, with what each of them needs and changes. -/
inductive Moved (S : Store σ) : Pool × σ → Pool × σ → Prop where
  | acquire {p s} (hh : p.holding = false) (hw : p.waiting ≠ []) (hp : 0 < p.permits) :
      Moved S (p, s) ({ p with holding := true, permits := p.permits - 1 }, s)
  | launch {p s c rest} (hh : p.holding = true) (hw : p.waiting = c :: rest) :
      Moved S (p, s) ({ p with
        holding := false
        waiting := rest
        tasks := p.tasks ++ [{ candidate := c, status := .ready .verify }]
        inFlight := p.inFlight + 1
        peak := max p.peak (p.inFlight + 1) }, s)
  | turn {p s i c status status' s'} (ht : p.tasks[i]? = some ⟨c, status⟩)
      (hturn : Turn S p.settings c status s status' s') :
      Moved S (p, s) (p.setStatus i status', s')
  | leave {p s i c result} (ht : p.tasks[i]? = some ⟨c, .leaving result⟩) :
      Moved S (p, s) ({ p.setStatus i (.releasing result) with inFlight := p.inFlight - 1 }, s)
  | release {p s i c result} (ht : p.tasks[i]? = some ⟨c, .releasing result⟩) :
      Moved S (p, s) ({ p.setStatus i (.finished result) with permits := p.permits + 1 }, s)
  | join {p s i c result} (hh : p.holding = false)
      (ht : p.tasks[i]? = some ⟨c, .finished result⟩) :
      Moved S (p, s) ({ p with
        tasks := p.tasks.eraseIdx i
        settled := { candidate := c, result } :: p.settled }, s)

variable {S : Store σ} {p p' : Pool} {s s' : σ}

theorem turn_of_enter? {i : Nat} (h : p.enter? S i s = some (p', s')) :
    ∃ c status status', p.tasks[i]? = some ⟨c, status⟩ ∧
      Turn S p.settings c status s status' s' ∧ p' = p.setStatus i status' := by
  unfold enter? at h
  obtain ⟨⟨c, status⟩, ht, h⟩ := Option.bind_eq_some_iff.mp h
  refine ⟨c, status, ?_⟩
  dsimp only at h
  split at h
  next phase =>
    obtain ⟨r, hr, h⟩ := Option.bind_eq_some_iff.mp h
    split at h
    next hs => cases h; exact ⟨_, ht, .entered hr hs, rfl⟩
    next hs => cases h; exact ⟨_, ht, .refused hr hs, rfl⟩
    next hs => cases h; exact ⟨_, ht, .halted hr hs, rfl⟩
  next => cases h

theorem turn_of_answer? {i : Nat} (h : p.answer? S i s = some (p', s')) :
    ∃ c status status', p.tasks[i]? = some ⟨c, status⟩ ∧
      Turn S p.settings c status s status' s' ∧ p' = p.setStatus i status' := by
  unfold answer? at h
  obtain ⟨⟨c, status⟩, ht, h⟩ := Option.bind_eq_some_iff.mp h
  refine ⟨c, status, ?_⟩
  dsimp only at h
  split at h
  next phase ticket =>
    obtain ⟨r, hr, h⟩ := Option.bind_eq_some_iff.mp h
    split at h
    next hs => cases h; exact ⟨_, ht, .answered hr hs, rfl⟩
    next hs => cases h; exact ⟨_, ht, .failed hr hs, rfl⟩
    next hs => cases h; exact ⟨_, ht, .broke hr hs, rfl⟩
  next => cases h

section Conditions

variable {i : Nat} {state : Pool × σ}

/-- The dispatcher can take a permit while one is free and somebody waits for it. -/
theorem step?_acquire : step? S .acquire (p, s) = some state ↔
    p.holding = false ∧ p.waiting ≠ [] ∧ 0 < p.permits ∧
      state = ({ p with holding := true, permits := p.permits - 1 }, s) := by
  rw [eq_comm (a := state)]
  simp only [step?, Option.ite_none_left_eq_some, Bool.or_eq_true, not_or, Bool.not_eq_true,
    List.isEmpty_eq_false_iff, beq_iff_eq, ← Nat.pos_iff_ne_zero, Option.some.injEq, and_assoc]

theorem step?_launch : step? S .launch (p, s) = some state ↔
    ∃ c rest, p.holding = true ∧ p.waiting = c :: rest ∧
      state = ({ p with
        holding := false
        waiting := rest
        tasks := p.tasks ++ [{ candidate := c, status := .ready .verify }]
        inFlight := p.inFlight + 1
        peak := max p.peak (p.inFlight + 1) }, s) := by
  rw [step?]
  cases hw : p.waiting with
  | nil => simp
  | cons c rest => cases p.holding <;> simp [eq_comm]

theorem step?_leave : step? S (.leave i) (p, s) = some state ↔
    ∃ c result, p.tasks[i]? = some ⟨c, .leaving result⟩ ∧
      state = ({ p.setStatus i (.releasing result) with inFlight := p.inFlight - 1 }, s) := by
  rw [step?]
  split
  next c result ht => simp [ht, eq_comm]
  next hnone =>
    refine ⟨nofun, fun h => ?_⟩
    obtain ⟨c, result, ht, -⟩ := h
    exact absurd ht (hnone c result)

theorem step?_release : step? S (.release i) (p, s) = some state ↔
    ∃ c result, p.tasks[i]? = some ⟨c, .releasing result⟩ ∧
      state = ({ p.setStatus i (.finished result) with permits := p.permits + 1 }, s) := by
  rw [step?]
  split
  next c result ht => simp [ht, eq_comm]
  next hnone =>
    refine ⟨nofun, fun h => ?_⟩
    obtain ⟨c, result, ht, -⟩ := h
    exact absurd ht (hnone c result)

/-- A task is taken note of only while the dispatcher holds no permit. -/
theorem step?_join : step? S (.join i) (p, s) = some state ↔
    ∃ c result, p.holding = false ∧ p.tasks[i]? = some ⟨c, .finished result⟩ ∧
      state = ({ p with
        tasks := p.tasks.eraseIdx i
        settled := { candidate := c, result } :: p.settled }, s) := by
  rw [step?]
  split
  next c result ht => cases p.holding <;> simp [ht, eq_comm]
  next hnone =>
    refine ⟨nofun, fun h => ?_⟩
    obtain ⟨c, result, -, ht, -⟩ := h
    exact absurd ht (hnone c result)

end Conditions

/-- Every move that a pass can make is of one of these kinds. -/
theorem moved_of_step? {m : Move} {state state' : Pool × σ}
    (h : step? S m state = some state') : Moved S state state' := by
  obtain ⟨p, s⟩ := state
  obtain ⟨p', s'⟩ := state'
  cases m with
  | acquire =>
    obtain ⟨hh, hw, hp, he⟩ := step?_acquire.mp h
    cases he
    exact .acquire hh hw hp
  | launch =>
    obtain ⟨c, rest, hh, hw, he⟩ := step?_launch.mp h
    cases he
    exact .launch hh hw
  | enter i =>
    obtain ⟨c, status, status', ht, hturn, rfl⟩ := turn_of_enter? h
    exact .turn ht hturn
  | answer i =>
    obtain ⟨c, status, status', ht, hturn, rfl⟩ := turn_of_answer? h
    exact .turn ht hturn
  | leave i =>
    obtain ⟨c, result, ht, he⟩ := step?_leave.mp h
    cases he
    exact .leave ht
  | release i =>
    obtain ⟨c, result, ht, he⟩ := step?_release.mp h
    cases he
    exact .release ht
  | join i =>
    obtain ⟨c, result, hh, ht, he⟩ := step?_join.mp h
    cases he
    exact .join hh ht

/-! ### Schedules -/

/-- A pass begins with all candidates waiting and all permits free, if the semaphore can hold them. -/
theorem start_eq_ok_iff {cfg : JobConfig} {candidates : List ChainCandidate} :
    start cfg candidates = .ok p ↔ cfg.maxInFlight ≤ maxPermits ∧ p = {
      settings := { placeholder := cfg.placeholderPassword, maxDepth := cfg.maxDepth }
      candidates := candidates.length
      waiting := candidates
      permits := cfg.maxInFlight } := by
  unfold start
  by_cases h : maxPermits < cfg.maxInFlight
  · simp [h]
  · simp [h, Nat.le_of_not_lt h, eq_comm]

theorem settings_of_start {cfg : JobConfig} {candidates : List ChainCandidate}
    (h : start cfg candidates = .ok p) :
    p.settings = ⟨cfg.placeholderPassword, cfg.maxDepth⟩ := by
  obtain ⟨-, rfl⟩ := start_eq_ok_iff.mp h
  rfl

theorem candidates_of_start {cfg : JobConfig} {candidates : List ChainCandidate}
    (h : start cfg candidates = .ok p) : p.candidates = candidates.length := by
  obtain ⟨-, rfl⟩ := start_eq_ok_iff.mp h
  rfl

theorem invariant_of_replay {I : Pool × σ → Prop}
    (hstep : ∀ {state state'}, Moved S state state' → I state → I state') {moves : List Move}
    {state state' : Pool × σ} (h : replay? S moves state = some state') (hI : I state) :
    I state' := by
  induction moves generalizing state with
  | nil => cases h; exact hI
  | cons m rest ih =>
    obtain ⟨mid, hm, hrest⟩ := Option.bind_eq_some_iff.mp h
    exact ih hrest (hstep (moved_of_step? hm) hI)

theorem settings_of_moved {state state' : Pool × σ} (h : Moved S state state') :
    state'.1.settings = state.1.settings := by
  cases h <;> rfl

theorem candidates_of_replay {moves : List Move} (h : replay? S moves (p, s) = some (p', s')) :
    p'.candidates = p.candidates := by
  refine invariant_of_replay (I := fun state => state.1.candidates = p.candidates) ?_ h rfl
  intro state state' hm hI
  cases hm <;> exact hI

end Pool

/-! ### Invariants of the store -/

/-- A condition on the phases that have a call to make or to wait for. -/
def TaskStatus.InPhase (Q : TaskPhase → Prop) : TaskStatus → Prop
  | ready phase => Q phase
  | calling phase _ => Q phase
  | _ => True

/-- Every call that a task makes meets `P`, by an invariant `Q` of its phases. -/
structure TaskSettings.Asks (settings : TaskSettings) (P : Call → Prop) (Q : TaskPhase → Prop) :
    Prop where
  start : Q .verify
  call : ∀ {phase c r}, Q phase → phase.request? settings c = some r → P r.call
  next : ∀ {phase c r}, Q phase → phase.request? settings c = some r → ∀ a, Q (r.next a)

namespace Pool

variable {P : Call → Prop} {Q : TaskPhase → Prop} {I : σ → Prop}

theorem inPhase_statusAt {phase : TaskPhase} (h : Q phase) : (statusAt phase).InPhase Q := by
  cases phase with
  | ended => trivial
  | verify | commit | absorb => exact h

/-- A call of a task keeps the invariants of the task and of the store. -/
theorem Turn.keeps {settings : TaskSettings} {c : ChainCandidate} {status status' : TaskStatus}
    (hk : S.Keeps P I) (hasks : settings.Asks P Q) (h : Turn S settings c status s status' s')
    (hq : status.InPhase Q) (hI : I s) : status'.InPhase Q ∧ I s' := by
  cases h with
  | entered hr hs =>
    have hkept := hk.enter (hasks.call hq hr) hI
    rw [hs] at hkept
    exact ⟨hq, hkept⟩
  | refused hr hs =>
    have hkept := hk.enter (hasks.call hq hr) hI
    rw [hs] at hkept
    exact ⟨inPhase_statusAt (hasks.next hq hr _), hkept⟩
  | halted hr hs =>
    have hkept := hk.enter (hasks.call hq hr) hI
    rw [hs] at hkept
    exact ⟨trivial, hkept⟩
  | @answered _ _ ticket _ _ _ hr hs | @failed _ _ ticket _ _ _ hr hs =>
    have hkept := hk.finish (t := ticket) (hasks.call hq hr) hI
    rw [hs] at hkept
    exact ⟨inPhase_statusAt (hasks.next hq hr _), hkept⟩
  | @broke _ _ ticket _ _ _ hr hs =>
    have hkept := hk.finish (t := ticket) (hasks.call hq hr) hI
    rw [hs] at hkept
    exact ⟨trivial, hkept⟩

theorem keeps_of_moved {state state' : Pool × σ} (hk : S.Keeps P I)
    (hasks : state.1.settings.Asks P Q) (h : Moved S state state')
    (htasks : ∀ t ∈ (state.1.tasks : Multiset Task), t.status.InPhase Q) (hI : I state.2) :
    (∀ t ∈ (state'.1.tasks : Multiset Task), t.status.InPhase Q) ∧ I state'.2 := by
  -- Whatever a task does, the others stay in their phases.
  have hset {p : Pool} {i : Nat} {c : ChainCandidate} {status status' : TaskStatus}
      (ht : p.tasks[i]? = some ⟨c, status⟩)
      (hall : ∀ t ∈ (p.tasks : Multiset Task), t.status.InPhase Q)
      (hstatus : status.InPhase Q → status'.InPhase Q) :
      ∀ t ∈ ((p.setStatus i status').tasks : Multiset Task), t.status.InPhase Q := by
    obtain ⟨others, hbefore, hafter, -⟩ := exists_other_tasks ht
    rw [hbefore, Multiset.forall_mem_cons] at hall
    rw [hafter, Multiset.forall_mem_cons]
    exact ⟨hstatus hall.1, hall.2⟩
  cases h with
  | acquire => exact ⟨htasks, hI⟩
  | launch hh hw =>
    refine ⟨?_, hI⟩
    simp only [coe_append_singleton, Multiset.forall_mem_cons]
    exact ⟨hasks.start, htasks⟩
  | turn ht hturn =>
    have hself := htasks _ (Multiset.mem_coe.mpr (List.mem_of_getElem? ht))
    obtain ⟨hq, hkept⟩ := hturn.keeps hk hasks hself hI
    exact ⟨hset ht htasks fun _ => hq, hkept⟩
  | leave ht => exact ⟨hset ht htasks fun _ => trivial, hI⟩
  | release ht => exact ⟨hset ht htasks fun _ => trivial, hI⟩
  | join hh ht =>
    obtain ⟨others, hbefore, -, herase⟩ := exists_other_tasks ht
    simp only [hbefore, Multiset.forall_mem_cons] at htasks
    refine ⟨?_, hI⟩
    simp only [herase]
    exact htasks.2

/-- If every call that a task may make keeps an invariant of the store, so does every schedule. -/
theorem keeps_of_replay {cfg : JobConfig} {candidates : List ChainCandidate} {moves : List Move}
    (hk : S.Keeps P I) (hp : start cfg candidates = .ok p) (hasks : p.settings.Asks P Q)
    (h : replay? S moves (p, s) = some (p', s')) (hI : I s) : I s' := by
  have hinv : p'.settings = p.settings ∧
      (∀ t ∈ (p'.tasks : Multiset Task), t.status.InPhase Q) ∧ I s' := by
    refine invariant_of_replay (I := fun state => state.1.settings = p.settings ∧
      (∀ t ∈ (state.1.tasks : Multiset Task), t.status.InPhase Q) ∧ I state.2) ?_ h ⟨rfl, ?_, hI⟩
    · intro state state' hm hh
      obtain ⟨hset, htasks, hI⟩ := hh
      exact ⟨(settings_of_moved hm).trans hset,
        keeps_of_moved hk (by rw [hset]; exact hasks) hm htasks hI⟩
    · obtain ⟨-, rfl⟩ := start_eq_ok_iff.mp hp
      exact fun t ht => absurd ht (Multiset.notMem_zero t)
  exact hinv.2.2

end Pool

end Downline
