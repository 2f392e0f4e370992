import Downline.Proofs.Rekey.Moves
import Mathlib.Algebra.BigOperators.Group.Multiset.Basic

/-! No re-keying pass gets stuck. The permits that are out are accounted for by the dispatcher and by the
unfinished tasks, so while a pass is not over somebody can move, and each move uses up one of the eleven that
a candidate has. -/

namespace Downline

/-- How many more calls a task makes at most. -/
def TaskPhase.callsLeft : TaskPhase → Nat
  | verify => 3
  | commit _ => 2
  | absorb .. => 1
  | ended _ => 0

theorem TaskPhase.exists_request {phase : TaskPhase} (h : 0 < phase.callsLeft)
    (settings : TaskSettings) (c : ChainCandidate) : ∃ r, phase.request? settings c = some r := by
  cases phase with
  | ended => exact absurd h (Nat.lt_irrefl 0)
  | verify | commit | absorb => exact ⟨_, rfl⟩

theorem TaskPhase.callsLeft_next {settings : TaskSettings} {c : ChainCandidate} {phase : TaskPhase}
    {r : Request TaskPhase} (hr : phase.request? settings c = some r)
    (a : Except StoreError r.call.Answer) : (r.next a).callsLeft < phase.callsLeft := by
  cases phase with
  | ended => cases hr
  | verify =>
    cases hr
    rcases a with e | path
    · exact Nat.succ_pos 2
    · exact afterPath_cases (P := fun phase => phase.callsLeft < 3) path (fun _ => Nat.succ_pos 2)
        fun _ _ _ _ => Nat.lt_succ_self 2
  | commit plan =>
    cases hr
    rcases a with e | written
    · exact Nat.succ_pos 1
    · exact afterCommit_cases (P := fun phase => phase.callsLeft < 2) plan written (Nat.succ_pos 1)
        fun _ _ => Nat.lt_succ_self 1
  | absorb plan last written =>
    cases hr
    cases a <;> exact Nat.one_pos

/-- How many more moves a task makes at most. -/
def TaskStatus.movesLeft : TaskStatus → Nat
  | ready phase => 2 * phase.callsLeft + 3
  | calling phase _ => 2 * phase.callsLeft + 2
  | leaving _ => 3
  | releasing _ => 2
  | finished _ => 1

/-- How many permits a task keeps out. -/
def TaskStatus.permitsOut : TaskStatus → Nat
  | finished _ => 0
  | _ => 1

/-- Whether a task that is between calls, or waits for an answer, has a call to make. -/
def TaskStatus.goesOn : TaskStatus → Prop
  | ready phase => 0 < phase.callsLeft
  | calling phase _ => 0 < phase.callsLeft
  | _ => True

namespace Pool

variable {σ : Type} {S : Store σ} {p : Pool} {s : σ} {n i : Nat} {c : ChainCandidate}
  {status status' : TaskStatus}

/-! ### What a move uses up -/

theorem goesOn_statusAt (phase : TaskPhase) : (statusAt phase).goesOn := by
  cases phase with
  | ended => trivial
  | verify | commit | absorb => exact Nat.succ_pos _

theorem movesLeft_statusAt (phase : TaskPhase) :
    (statusAt phase).movesLeft = 2 * phase.callsLeft + 3 := by
  cases phase <;> rfl

theorem permitsOut_statusAt (phase : TaskPhase) : (statusAt phase).permitsOut = 1 := by
  cases phase <;> rfl

/-- A call uses up a move; the task that makes it can go on afterwards and keeps its permit. -/
theorem Turn.spec {settings : TaskSettings} {s s' : σ} (h : Turn S settings c status s status' s')
    (hgo : status.goesOn) : status'.goesOn ∧ status'.movesLeft < status.movesLeft ∧
      status'.permitsOut = status.permitsOut := by
  have hnext {phase : TaskPhase} {r : Request TaskPhase} (hr : phase.request? settings c = some r)
      (a : Except StoreError r.call.Answer) : (statusAt (r.next a)).goesOn ∧
        (statusAt (r.next a)).movesLeft < 2 * phase.callsLeft + 2 ∧
        (statusAt (r.next a)).permitsOut = 1 := by
    have hlt := TaskPhase.callsLeft_next hr a
    refine ⟨goesOn_statusAt _, ?_, permitsOut_statusAt _⟩
    rw [movesLeft_statusAt]
    omega
  cases h with
  | entered hr hs => exact ⟨hgo, Nat.lt_succ_self _, rfl⟩
  | halted hr hs | broke hr hs =>
    have hpos : 0 < _ := hgo
    refine ⟨trivial, ?_, rfl⟩
    simp only [TaskStatus.movesLeft]
    omega
  | refused hr hs =>
    obtain ⟨hgo', hlt, hout⟩ := hnext hr (.error _)
    exact ⟨hgo', Nat.lt_succ_of_lt hlt, hout⟩
  | answered hr hs => exact hnext hr (.ok _)
  | failed hr hs => exact hnext hr (.error _)

/-- Of `n` permits each is free, held by the dispatcher, or out with a task; and nobody is stuck. -/
structure Ledger (n : Nat) (p : Pool) : Prop where
  permits : p.permits + (if p.holding then 1 else 0) +
    ((p.tasks : Multiset Task).map (·.status.permitsOut)).sum = n
  holding : p.holding = true → p.waiting ≠ []
  goesOn : ∀ t ∈ (p.tasks : Multiset Task), t.status.goesOn

/-- How many more moves a pass makes at most. -/
def movesLeft (p : Pool) : Nat :=
  11 * p.waiting.length + ((p.tasks : Multiset Task).map (·.status.movesLeft)).sum -
    if p.holding then 1 else 0

theorem Ledger.setStatus {permits inFlight : Nat} (hl : p.Ledger n)
    (ht : p.tasks[i]? = some ⟨c, status⟩) (hgo : status.goesOn → status'.goesOn)
    (hlt : status.goesOn → status'.movesLeft < status.movesLeft)
    (hout : status.goesOn → permits + status'.permitsOut = p.permits + status.permitsOut) :
    Ledger n { p.setStatus i status' with permits, inFlight } ∧
      movesLeft { p.setStatus i status' with permits, inFlight } < p.movesLeft := by
  obtain ⟨others, htasks, hmodify, -⟩ := exists_other_tasks ht
  obtain ⟨hpermits, hholding, hgoes⟩ := hl
  have hg : status.goesOn := hgoes _ (by rw [htasks]; exact Multiset.mem_cons_self _ _)
  have hlt := hlt hg
  have hout := hout hg
  -- While the dispatcher holds a permit somebody waits, and the difference is not cut off at zero.
  have hwait : p.holding = true → 0 < p.waiting.length :=
    fun hh => List.length_pos_iff.mpr (hholding hh)
  refine ⟨⟨?_, hholding, ?_⟩, ?_⟩
  · rw [htasks, Multiset.map_cons, Multiset.sum_cons] at hpermits
    rw [hmodify, Multiset.map_cons, Multiset.sum_cons]
    change permits + (if p.holding then 1 else 0) + (status'.permitsOut + _) = n
    dsimp only at hpermits
    omega
  · rw [htasks, Multiset.forall_mem_cons] at hgoes
    rw [hmodify, Multiset.forall_mem_cons]
    exact ⟨hgo hg, hgoes.2⟩
  · rw [movesLeft, movesLeft, hmodify, htasks, Multiset.map_cons, Multiset.sum_cons,
      Multiset.map_cons, Multiset.sum_cons]
    change 11 * p.waiting.length + _ - (if p.holding then 1 else 0) < _
    cases hh : p.holding with
    | true =>
      have := hwait hh
      simp only [if_true]
      omega
    | false =>
      simp only [Bool.false_eq_true, if_false]
      omega

/-- Each move keeps the ledger and uses up a move. -/
theorem ledger_of_moved {state state' : Pool × σ} (h : Moved S state state')
    (hl : state.1.Ledger n) : state'.1.Ledger n ∧ state'.1.movesLeft < state.1.movesLeft := by
  cases h with
  | acquire hh hw hp =>
    obtain ⟨hpermits, -, hgo⟩ := hl
    simp only [hh, Bool.false_eq_true, if_false] at hpermits
    have hlen := List.length_pos_iff.mpr hw
    refine ⟨⟨?_, fun _ => hw, hgo⟩, ?_⟩
    · simp only [if_true]
      omega
    · simp only [movesLeft, hh, if_true, Bool.false_eq_true, if_false]
      omega
  | @launch p s c rest hh hw =>
    -- The permit passes from the dispatcher to the task, which has nine of the eleven moves left.
    obtain ⟨hpermits, -, hgo⟩ := hl
    simp only [hh, if_true] at hpermits
    have htasks := coe_append_singleton p.tasks ⟨c, .ready .verify⟩
    have hone : (TaskStatus.ready .verify).permitsOut = 1 := rfl
    have hnine : (TaskStatus.ready .verify).movesLeft = 9 := rfl
    refine ⟨⟨?_, nofun, ?_⟩, ?_⟩
    · simp only [htasks, Multiset.map_cons, Multiset.sum_cons, Bool.false_eq_true, if_false]
      omega
    · dsimp only
      rw [htasks, Multiset.forall_mem_cons]
      exact ⟨Nat.succ_pos 2, hgo⟩
    · simp only [movesLeft, htasks, Multiset.map_cons, Multiset.sum_cons, hh, hw, if_true,
        Bool.false_eq_true, if_false, List.length_cons]
      omega
  | turn ht hturn =>
    exact hl.setStatus ht (fun hg => (hturn.spec hg).1) (fun hg => (hturn.spec hg).2.1)
      fun hg => by rw [(hturn.spec hg).2.2]
  | leave ht => exact hl.setStatus ht id (fun _ => Nat.lt_succ_self 2) fun _ => rfl
  | release ht => exact hl.setStatus ht id (fun _ => Nat.lt_succ_self 1) fun _ => rfl
  | @join p s i c result hh ht =>
    obtain ⟨others, htasks, -, herase⟩ := exists_other_tasks ht
    obtain ⟨hpermits, hholding, hgo⟩ := hl
    have hzero : (TaskStatus.finished result).permitsOut = 0 := rfl
    have hone : (TaskStatus.finished result).movesLeft = 1 := rfl
    simp only [htasks, Multiset.map_cons, Multiset.sum_cons] at hpermits
    dsimp only at hgo
    rw [htasks, Multiset.forall_mem_cons] at hgo
    refine ⟨⟨?_, hholding, ?_⟩, ?_⟩
    · simp only [herase]
      omega
    · dsimp only
      rw [herase]
      exact hgo.2
    · simp only [movesLeft, herase, htasks, Multiset.map_cons, Multiset.sum_cons, hh,
        Bool.false_eq_true, if_false]
      omega

/-! ### Progress -/

theorem ledger_of_start {cfg : JobConfig} {candidates : List ChainCandidate}
    (h : start cfg candidates = .ok p) :
    p.Ledger cfg.maxInFlight ∧ p.movesLeft = maxMoves candidates.length := by
  obtain ⟨-, rfl⟩ := start_eq_ok_iff.mp h
  exact ⟨⟨rfl, nofun, nofun⟩, rfl⟩

theorem exists_step_of_task {t : Task} (now : Nat) (ht : p.tasks[i]? = some t)
    (hgo : t.status.goesOn) (hh : p.holding = false) :
    ∃ state, step? S (taskMove now i t).2 (p, s) = some state := by
  obtain ⟨c, status⟩ := t
  cases status with
  | ready phase =>
    obtain ⟨r, hr⟩ := TaskPhase.exists_request hgo p.settings c
    have hmove : (taskMove now i ⟨c, .ready phase⟩).2 = .enter i := by cases phase <;> rfl
    rw [hmove, step?, enter?, ht]
    simp only [bind, Option.bind_some, hr]
    split <;> exact ⟨_, rfl⟩
  | calling phase ticket =>
    obtain ⟨r, hr⟩ := TaskPhase.exists_request hgo p.settings c
    have hmove : (taskMove now i ⟨c, .calling phase ticket⟩).2 = .answer i := by
      simp only [taskMove]
      split <;> rfl
    rw [hmove, step?, answer?, ht]
    simp only [bind, Option.bind_some, hr]
    split <;> exact ⟨_, rfl⟩
  | leaving result | releasing result => simp [taskMove, step?, ht]
  | finished result => simp [taskMove, step?, ht, hh]

theorem exists_task_of_urgentMove {now i : Nat} {tasks : List Task}
    {best : Option (Urgency × Move)} {m : Urgency × Move}
    (h : urgentMove now i tasks best = some m) :
    best = some m ∨ ∃ j t, tasks[j]? = some t ∧ taskMove now (i + j) t = m := by
  induction tasks generalizing i best with
  | nil => exact .inl h
  | cons t rest ih =>
    -- Either the head has taken the lead, or a task behind it did.
    have hhead : ∀ {best'}, urgentMove now (i + 1) rest best' = some m →
        best' = some m ∨ ∃ j t', (t :: rest)[j]? = some t' ∧ taskMove now (i + j) t' = m := by
      intro best' h'
      rcases ih h' with hb | ⟨j, t', ht', hm⟩
      · exact .inl hb
      · exact .inr ⟨j + 1, t', ht', by rw [← hm]; congr 1; omega⟩
    cases best with
    | none =>
      rw [urgentMove] at h
      rcases hhead h with hb | htask
      · exact .inr ⟨0, t, rfl, Option.some.inj hb⟩
      · exact .inr htask
    | some b =>
      rw [urgentMove] at h
      rcases hhead h with hb | htask
      · split at hb
        · exact .inr ⟨0, t, rfl, Option.some.inj hb⟩
        · exact .inl hb
      · exact .inr htask

theorem isSome_urgentMove {now i : Nat} {tasks : List Task} {best : Option (Urgency × Move)}
    (h : tasks ≠ [] ∨ best.isSome) : (urgentMove now i tasks best).isSome := by
  induction tasks generalizing i best with
  | nil => exact h.resolve_left fun hn => hn rfl
  | cons t rest ih =>
    cases best with
    | none =>
      rw [urgentMove]
      exact ih (.inr rfl)
    | some b =>
      rw [urgentMove]
      exact ih (.inr (by split <;> rfl))

theorem exists_step_of_dispatcherMove {d : Move} (hh : p.holding = false)
    (hd : p.dispatcherMove = some d) : ∃ state, step? S d (p, s) = some state := by
  rw [dispatcherMove, hh] at hd
  simp only [Bool.false_eq_true, if_false] at hd
  split at hd
  next => cases hd
  next hc =>
    cases hd
    exact ⟨_, by rw [step?, hh, Bool.false_or, if_neg hc]⟩

theorem exists_step_of_urgentMove {now : Nat} {u : Urgency} {m : Move} (hl : p.Ledger n)
    (hh : p.holding = false) (hm : urgentMove now 0 p.tasks none = some (u, m)) :
    ∃ state, step? S m (p, s) = some state := by
  obtain hbest | ⟨j, t, ht, he⟩ := exists_task_of_urgentMove hm
  · cases hbest
  · have hgo := hl.goesOn t (Multiset.mem_coe.mpr (List.mem_of_getElem? ht))
    have hstep := exists_step_of_task (S := S) (s := s) now ht hgo hh
    rw [Nat.zero_add] at he
    rwa [he] at hstep

theorem isSome_dispatcherMove_or_urgentMove {now : Nat} (hl : p.Ledger n) (hn : 0 < n)
    (hh : p.holding = false) (ho : p.isOver = false) :
    p.dispatcherMove.isSome ∨ (urgentMove now 0 p.tasks none).isSome := by
  by_cases htasks : p.tasks = []
  · -- Without tasks every permit is free, so the dispatcher takes one for a candidate that waits.
    have hfree := hl.permits
    rw [hh, htasks] at hfree
    have hpermits : p.permits = n := hfree
    have hwait : p.waiting ≠ [] := by
      intro hw
      simp [isOver, hw, hh, htasks] at ho
    have hne : p.permits ≠ 0 := by omega
    exact .inl (by simp [dispatcherMove, hh, hwait, hne])
  · exact .inr (isSome_urgentMove (.inl htasks))

/-- The dispatcher's move or the most urgent one of a task comes next. -/
theorem exists_nextMove_eq (hh : p.holding = false)
    (hsome : p.dispatcherMove.isSome ∨ (urgentMove (S.now s) 0 p.tasks none).isSome) :
    ∃ m, nextMove S p s = some m ∧ (p.dispatcherMove = some m ∨
      ∃ u, urgentMove (S.now s) 0 p.tasks none = some (u, m)) := by
  rw [nextMove, hh]
  cases hd : p.dispatcherMove with
  | none =>
    rw [hd] at hsome
    obtain ⟨m, hm⟩ := Option.isSome_iff_exists.mp (hsome.resolve_left nofun)
    exact ⟨m.2, by rw [hm]; rfl, .inr ⟨m.1, hm⟩⟩
  | some d =>
    cases hu : urgentMove (S.now s) 0 p.tasks none with
    | none => exact ⟨d, rfl, .inl rfl⟩
    | some m =>
      by_cases hr : m.1.rank < dispatcherRank
      · exact ⟨m.2, by simp [hr], .inr ⟨m.1, rfl⟩⟩
      · exact ⟨d, by simp [hr], .inl rfl⟩

/-- While a pass is not over, its schedule has a next move, and the pass can make it. -/
theorem exists_nextMove (hl : p.Ledger n) (hn : 0 < n) (ho : p.isOver = false) :
    ∃ m state, nextMove S p s = some m ∧ step? S m (p, s) = some state := by
  cases hh : p.holding with
  | true =>
    obtain ⟨c, rest, hw⟩ := List.exists_cons_of_ne_nil (hl.holding hh)
    have hstep : ∃ state, step? S .launch (p, s) = some state := by simp [step?, hw, hh]
    obtain ⟨state, hstate⟩ := hstep
    exact ⟨.launch, state, by rw [nextMove, if_pos hh], hstate⟩
  | false =>
    obtain ⟨m, hm, hd | ⟨u, hu⟩⟩ :=
      exists_nextMove_eq (S := S) (s := s) hh (isSome_dispatcherMove_or_urgentMove hl hn hh ho)
    · obtain ⟨state, hstate⟩ := exists_step_of_dispatcherMove (S := S) (s := s) hh hd
      exact ⟨m, state, hm, hstate⟩
    · obtain ⟨state, hstate⟩ := exists_step_of_urgentMove (S := S) (s := s) hl hh hu
      exact ⟨m, state, hm, hstate⟩

/-- The moves of the schedule, as many as there are left, bring a pass to its end. -/
theorem isOver_drive {k : Nat} (hl : p.Ledger n) (hn : 0 < n) (hk : p.movesLeft ≤ k) :
    (drive S k (p, s)).1.isOver = true := by
  induction k generalizing p s with
  | zero =>
    by_contra ho
    obtain ⟨m, state, -, hstep⟩ := exists_nextMove (S := S) (s := s) hl hn (Bool.not_eq_true _ ▸ ho)
    have hlt := (ledger_of_moved (moved_of_step? hstep) hl).2
    exact absurd hk (by have : state.1.movesLeft < p.movesLeft := hlt; omega)
  | succ k ih =>
    rw [drive]
    cases ho : p.isOver with
    | false =>
      obtain ⟨m, state, hnext, hstep⟩ := exists_nextMove (S := S) (s := s) hl hn ho
      obtain ⟨hl', hlt⟩ := ledger_of_moved (moved_of_step? hstep) hl
      have hlt' : state.1.movesLeft < p.movesLeft := hlt
      simp only [hnext, Option.bind_some, hstep]
      exact ih hl' (by omega)
    | true =>
      split
      next state' h' =>
        obtain ⟨m, hm, hstep⟩ := Option.bind_eq_some_iff.mp h'
        obtain ⟨hl', hlt⟩ := ledger_of_moved (moved_of_step? hstep) hl
        have hlt' : state'.1.movesLeft < p.movesLeft := hlt
        exact ih hl' (by omega)
      next => exact ho

/-- The schedule is one of those that the pass can follow. -/
theorem exists_replay_drive (k : Nat) (state : Pool × σ) :
    ∃ moves, replay? S moves state = some (drive S k state) := by
  induction k generalizing state with
  | zero => exact ⟨[], rfl⟩
  | succ k ih =>
    rw [drive]
    split
    next state' h =>
      obtain ⟨m, -, hstep⟩ := Option.bind_eq_some_iff.mp h
      obtain ⟨moves, hmoves⟩ := ih state'
      exact ⟨m :: moves, by rw [replay?, hstep, Option.bind_some, hmoves]⟩
    next => exact ⟨[], rfl⟩

/-- However a pass has gone so far, it can go on to its end. -/
theorem exists_replay_isOver {cfg : JobConfig} {candidates : List ChainCandidate}
    (hn : cfg.maxInFlight ≠ 0) (hstart : start cfg candidates = .ok p) {moves : List Move}
    {state : Pool × σ} (h : replay? S moves (p, s) = some state) :
    ∃ more state', replay? S more state = some state' ∧ state'.1.isOver = true := by
  have hl : state.1.Ledger cfg.maxInFlight :=
    invariant_of_replay (I := fun state => state.1.Ledger cfg.maxInFlight)
      (fun hm hl => (ledger_of_moved hm hl).1) h (ledger_of_start hstart).1
  obtain ⟨more, hmore⟩ := exists_replay_drive (S := S) state.1.movesLeft state
  exact ⟨more, _, hmore, isOver_drive hl (Nat.pos_of_ne_zero hn) (Nat.le_refl _)⟩

end Pool

end Downline
