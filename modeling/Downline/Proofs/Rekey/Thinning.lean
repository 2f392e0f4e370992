import Downline.Proofs.Rekey.Progress
import Mathlib.Algebra.Order.BigOperators.Group.List
import Mathlib.Algebra.Order.Group.Nat

/-! A re-keying pass with some of its tasks left out. If what these tasks do leaves the store as it is, the
others can make their moves without them, in the same order and with the same answers. -/

namespace Downline

/-! ### Lists without what is marked -/

/-- A list without its marked members. -/
def unmarked {α : Type} : List Bool → List α → List α
  | b :: marks, a :: l => if b then unmarked marks l else a :: unmarked marks l
  | _, _ => []

section Unmarked

variable {α : Type} {marks : List Bool} {l : List α}

theorem sublist_unmarked (marks : List Bool) (l : List α) : (unmarked marks l).Sublist l := by
  induction marks generalizing l with
  | nil => exact List.nil_sublist l
  | cons b marks ih =>
    cases l with
    | nil => exact List.Sublist.refl []
    | cons a l =>
      cases b with
      | true => exact (ih l).cons a
      | false => exact (ih l).cons_cons a

theorem unmarked_map (f : α → Bool) (l : List α) : unmarked (l.map f) l = l.filter (!f ·) := by
  induction l with
  | nil => rfl
  | cons a l ih =>
    rw [List.map_cons, unmarked, List.filter_cons, ih]
    cases f a <;> rfl

theorem unmarked_append (h : marks.length = l.length) (marks' : List Bool) (l' : List α) :
    unmarked (marks ++ marks') (l ++ l') = unmarked marks l ++ unmarked marks' l' := by
  induction marks generalizing l with
  | nil =>
    obtain rfl := List.eq_nil_of_length_eq_zero h.symm
    rfl
  | cons b marks ih =>
    cases l with
    | nil => cases h
    | cons a l =>
      have htail := ih (Nat.succ.inj h)
      cases b with
      | true => exact htail
      | false => exact congrArg (a :: ·) htail

theorem length_unmarked (h : marks.length = l.length) :
    (unmarked marks l).length = marks.count false := by
  induction marks generalizing l with
  | nil => rfl
  | cons b marks ih =>
    cases l with
    | nil => cases h
    | cons a l =>
      have htail := ih (Nat.succ.inj h)
      cases b with
      | true => exact htail
      | false => rw [List.count_cons_self, ← htail]; rfl

/-- Where an unmarked member stands among the unmarked ones. -/
def placeAmong (marks : List Bool) (i : Nat) : Nat := (marks.take i).count false

/-- What stands at one place, with its mark, and what stands before and behind it. -/
theorem exists_split {i : Nat} {b : Bool} {a : α} (h : marks.length = l.length)
    (hb : marks[i]? = some b) (ha : l[i]? = some a) : ∃ m m' k k', m.length = k.length ∧
      marks = m ++ b :: m' ∧ l = k ++ a :: k' ∧ i = k.length := by
  obtain ⟨hi, rfl⟩ := List.getElem?_eq_some_iff.mp hb
  obtain ⟨hi', rfl⟩ := List.getElem?_eq_some_iff.mp ha
  refine ⟨marks.take i, marks.drop (i + 1), l.take i, l.drop (i + 1), ?_, by simp, by simp, ?_⟩
  · rw [List.length_take, List.length_take, h]
  · rw [List.length_take]
    omega

theorem modify_append_length (k k' : List α) (a : α) (f : α → α) :
    (k ++ a :: k').modify k.length f = k ++ f a :: k' := by
  simp [List.modify_eq_take_cons_drop]

theorem eraseIdx_append_length (k k' : List α) (a : α) :
    (k ++ a :: k').eraseIdx k.length = k ++ k' := by
  simp [List.eraseIdx_append_of_length_le]

/-- Whatever becomes of a marked member, the others do not notice. -/
theorem unmarked_of_marked {i : Nat} {a : α} (h : marks.length = l.length)
    (hb : marks[i]? = some true) (ha : l[i]? = some a) :
    (∀ f, unmarked marks (l.modify i f) = unmarked marks l) ∧
      unmarked (marks.eraseIdx i) (l.eraseIdx i) = unmarked marks l := by
  obtain ⟨m, m', k, k', hm, rfl, rfl, rfl⟩ := exists_split h hb ha
  have hwhole (a' : α) :
      unmarked (m ++ true :: m') (k ++ a' :: k') = unmarked m k ++ unmarked m' k' :=
    unmarked_append hm _ _
  refine ⟨fun f => ?_, ?_⟩
  · rw [modify_append_length, hwhole, hwhole]
  · rw [hwhole, eraseIdx_append_length, ← hm, eraseIdx_append_length, unmarked_append hm]

/-- An unmarked member is found among the others, and changes there as it changes here. -/
theorem unmarked_of_kept {i : Nat} {a : α} (h : marks.length = l.length)
    (hb : marks[i]? = some false) (ha : l[i]? = some a) :
    (unmarked marks l)[placeAmong marks i]? = some a ∧
      (∀ f, unmarked marks (l.modify i f) = (unmarked marks l).modify (placeAmong marks i) f) ∧
      unmarked (marks.eraseIdx i) (l.eraseIdx i) =
        (unmarked marks l).eraseIdx (placeAmong marks i) := by
  obtain ⟨m, m', k, k', hm, rfl, rfl, rfl⟩ := exists_split h hb ha
  have hwhole (a' : α) :
      unmarked (m ++ false :: m') (k ++ a' :: k') = unmarked m k ++ a' :: unmarked m' k' :=
    unmarked_append hm _ _
  have hplace : placeAmong (m ++ false :: m') k.length = (unmarked m k).length := by
    rw [length_unmarked hm, placeAmong, ← hm, List.take_left]
  rw [hplace]
  refine ⟨?_, fun f => ?_, ?_⟩
  · rw [hwhole]
    simp
  · rw [modify_append_length, hwhole, hwhole, modify_append_length]
  · rw [hwhole, eraseIdx_append_length, eraseIdx_append_length, ← hm, eraseIdx_append_length,
      unmarked_append hm]

end Unmarked

/-! ### States that a store does not tell apart -/

variable {σ : Type}

/-- The store answers related states alike, and its calls keep them related. -/
structure Store.Respects (S : Store σ) (R : σ → σ → Prop) : Prop where
  equivalence : Equivalence R
  enter : ∀ c {s u}, R s u →
    (S.enter c s).1 = (S.enter c u).1 ∧ R (S.enter c s).2 (S.enter c u).2
  finish : ∀ c t {s u}, R s u →
    (S.finish c t s).1 = (S.finish c t u).1 ∧ R (S.finish c t s).2 (S.finish c t u).2

namespace Pool

variable {S : Store σ} {R : σ → σ → Prop} {p p' q : Pool} {s s' u : σ} {i j : Nat}

section Turns

variable (hR : S.Respects R) (hset : q.settings = p.settings) (ht : q.tasks[j]? = p.tasks[i]?)
  (hu : R s u)
include hR hset ht hu

/-- A task that stands at another place of another pass enters its next call there as it does here. -/
theorem exists_enter? (h : p.enter? S i s = some (p', s')) :
    ∃ status u', p' = p.setStatus i status ∧ q.enter? S j u = some (q.setStatus j status, u') ∧
      R s' u' := by
  unfold enter? at h ⊢
  obtain ⟨⟨c, status⟩, htask, h⟩ := Option.bind_eq_some_iff.mp h
  rw [ht, htask, hset]
  cases status with
  | calling | leaving | releasing | finished => cases h
  | ready phase =>
    obtain ⟨r, hr, h⟩ := Option.bind_eq_some_iff.mp h
    have hrespects := hR.enter r.call hu
    cases hs : S.enter r.call s with
    | mk answer s₁ =>
      cases hu' : S.enter r.call u with
      | mk answer' u₁ =>
        rw [hs, hu'] at hrespects
        rw [hs] at h
        obtain ⟨rfl, hkept⟩ := hrespects
        rcases answer with (e | halt) | ticket
        all_goals
          cases h
          exact ⟨_, u₁, rfl, by simp [hr, hu'], hkept⟩

theorem exists_answer? (h : p.answer? S i s = some (p', s')) :
    ∃ status u', p' = p.setStatus i status ∧ q.answer? S j u = some (q.setStatus j status, u') ∧
      R s' u' := by
  unfold answer? at h ⊢
  obtain ⟨⟨c, status⟩, htask, h⟩ := Option.bind_eq_some_iff.mp h
  rw [ht, htask, hset]
  cases status with
  | ready | leaving | releasing | finished => cases h
  | calling phase ticket =>
    obtain ⟨r, hr, h⟩ := Option.bind_eq_some_iff.mp h
    have hrespects := hR.finish r.call ticket hu
    cases hs : S.finish r.call ticket s with
    | mk answer s₁ =>
      cases hu' : S.finish r.call ticket u with
      | mk answer' u₁ =>
        rw [hs, hu'] at hrespects
        rw [hs] at h
        obtain ⟨rfl, hkept⟩ := hrespects
        rcases answer with (e | halt) | a
        all_goals
          cases h
          exact ⟨_, u₁, rfl, by simp [hr, hu'], hkept⟩

end Turns

/-! ### Tasks to leave out -/

/-- Which candidates of a pass to leave out: of those that wait, those at work, and those settled. -/
structure Marks where
  waiting : List Bool
  working : List Bool := []
  settled : List Bool := []

namespace Marks

/-- The marks after a move. Each stays with its candidate. -/
def after (f : Marks) : Move → Marks
  | .launch => { f with
      waiting := f.waiting.tail
      working := f.working ++ f.waiting.head?.toList }
  | .join i => { f with
      working := f.working.eraseIdx i
      settled := f.working[i]?.toList ++ f.settled }
  | _ => f

/-- Whether a move is made for a marked candidate. -/
def leavesOut (f : Marks) : Move → Bool
  | .acquire | .launch => f.waiting.head? == some true
  | .enter i | .answer i | .leave i | .release i | .join i => f.working[i]? == some true

/-- A move where the marked tasks are missing. -/
def renumbered (f : Marks) : Move → Move
  | .acquire => .acquire
  | .launch => .launch
  | .enter i => .enter (placeAmong f.working i)
  | .answer i => .answer (placeAmong f.working i)
  | .leave i => .leave (placeAmong f.working i)
  | .release i => .release (placeAmong f.working i)
  | .join i => .join (placeAmong f.working i)

/-- A schedule without the moves of marked candidates. -/
def thinned : Marks → List Move → List Move
  | _, [] => []
  | f, m :: rest =>
    if f.leavesOut m then (f.after m).thinned rest
    else f.renumbered m :: (f.after m).thinned rest

/-- `q` stands where `p` does, but for the marked candidates. -/
structure Thins (f : Marks) (p q : Pool) : Prop where
  settings : q.settings = p.settings
  lengthWaiting : f.waiting.length = p.waiting.length
  lengthWorking : f.working.length = p.tasks.length
  waiting : q.waiting = unmarked f.waiting p.waiting
  holding : q.holding = (p.holding && f.waiting.head? != some true)
  tasks : q.tasks = unmarked f.working p.tasks
  settled : q.settled = unmarked f.settled p.settled

/-- The moves of marked candidates leave the store in a state that it does not tell from the one before. -/
def Silent (S : Store σ) (R : σ → σ → Prop) (f : Marks) (moves : List Move) (state : Pool × σ) :
    Prop :=
  ∀ before m rest mid next, moves = before ++ m :: rest → replay? S before state = some mid →
    step? S m mid = some next → (before.foldl after f).leavesOut m = true → R mid.2 next.2

variable {f : Marks} {n : Nat} {m : Move}

/-! ### One move -/

section Step

variable {t : Task} {c : ChainCandidate} (h : f.Thins p q)
include h

theorem Thins.holding_eq_false (hh : p.holding = false) : q.holding = false := by
  rw [h.holding, hh, Bool.false_and]

/-- A task that is not marked is found among those that are kept. -/
theorem Thins.kept (ht : p.tasks[i]? = some t) (hm : (f.working[i]? == some true) = false) :
    f.working[i]? = some false ∧ q.tasks[placeAmong f.working i]? = some t := by
  obtain ⟨hi, -⟩ := List.getElem?_eq_some_iff.mp ht
  cases hb : f.working[i]? with
  | none =>
    rw [List.getElem?_eq_none_iff, h.lengthWorking] at hb
    exact absurd hi (Nat.not_lt.mpr hb)
  | some b =>
    cases b with
    | true => rw [hb] at hm; cases hm
    | false => exact ⟨rfl, h.tasks ▸ (unmarked_of_kept h.lengthWorking hb ht).1⟩

theorem Thins.exists_waiting {rest : List ChainCandidate} (hw : p.waiting = c :: rest) :
    ∃ b marks, f.waiting = b :: marks ∧ marks.length = rest.length := by
  have hlength := h.lengthWaiting
  rw [hw] at hlength
  obtain ⟨b, marks, hf⟩ := List.exists_cons_of_length_eq_add_one hlength
  rw [hf] at hlength
  exact ⟨b, marks, hf, Nat.succ.inj hlength⟩

theorem Thins.setStatus_of_marked (hb : f.working[i]? = some true) (ht : p.tasks[i]? = some t)
    (status : TaskStatus) (permits inFlight : Nat) :
    f.Thins { p.setStatus i status with permits, inFlight } q where
  settings := h.settings
  lengthWaiting := h.lengthWaiting
  lengthWorking := h.lengthWorking.trans (List.length_modify _ _ _).symm
  waiting := h.waiting
  holding := h.holding
  tasks := h.tasks.trans ((unmarked_of_marked h.lengthWorking hb ht).1 _).symm
  settled := h.settled

theorem Thins.setStatus_of_kept (hb : f.working[i]? = some false) (ht : p.tasks[i]? = some t)
    (status : TaskStatus) (permits inFlight permits' inFlight' : Nat) :
    f.Thins { p.setStatus i status with permits, inFlight }
      { q.setStatus (placeAmong f.working i) status with
        permits := permits', inFlight := inFlight' } where
  settings := h.settings
  lengthWaiting := h.lengthWaiting
  lengthWorking := h.lengthWorking.trans (List.length_modify _ _ _).symm
  waiting := h.waiting
  holding := h.holding
  tasks := by
    have hmodify := (unmarked_of_kept h.lengthWorking hb ht).2.1 fun t => { t with status }
    rw [← h.tasks] at hmodify
    exact hmodify.symm
  settled := h.settled

/-- A move for a marked candidate changes nothing where the marked ones are missing. -/
theorem Thins.skip (hstep : step? S m (p, s) = some (p', s')) (hm : f.leavesOut m = true) :
    (f.after m).Thins p' q := by
  cases m with
  | acquire =>
    obtain ⟨hh, hw, hp, he⟩ := step?_acquire.mp hstep
    cases he
    have hhead : f.waiting.head? = some true := beq_iff_eq.mp hm
    -- The dispatcher holds a permit now, but it is meant for a marked candidate.
    refine ⟨h.settings, h.lengthWaiting, h.lengthWorking, h.waiting, ?_, h.tasks, h.settled⟩
    rw [h.holding, hh]
    change false = (true && f.waiting.head? != some true)
    rw [hhead]
    rfl
  | launch =>
    obtain ⟨c, rest, hh, hw, he⟩ := step?_launch.mp hstep
    cases he
    obtain ⟨b, marks, hf, hlength⟩ := h.exists_waiting hw
    have hhead : f.waiting.head? = some true := beq_iff_eq.mp hm
    obtain ⟨waiting, working, settled⟩ := f
    obtain rfl : waiting = b :: marks := hf
    obtain rfl : b = true := Option.some.inj hhead
    -- The new task brings its mark along, so those that are kept stay the same.
    refine ⟨h.settings, hlength, ?_, ?_, ?_, ?_, h.settled⟩
    · simp [after, h.lengthWorking]
    · rw [h.waiting, hw]
      rfl
    · rw [h.holding, hh]
      rfl
    · have happend := unmarked_append h.lengthWorking [true] [⟨c, .ready .verify⟩]
      rw [h.tasks]
      exact (List.append_nil _).symm.trans happend.symm
  | enter i =>
    obtain ⟨c, status, status', ht, -, rfl⟩ := turn_of_enter? hstep
    exact h.setStatus_of_marked (beq_iff_eq.mp hm) ht status' _ _
  | answer i =>
    obtain ⟨c, status, status', ht, -, rfl⟩ := turn_of_answer? hstep
    exact h.setStatus_of_marked (beq_iff_eq.mp hm) ht status' _ _
  | leave i =>
    obtain ⟨c, result, ht, he⟩ := step?_leave.mp hstep
    cases he
    exact h.setStatus_of_marked (beq_iff_eq.mp hm) ht _ _ _
  | release i =>
    obtain ⟨c, result, ht, he⟩ := step?_release.mp hstep
    cases he
    exact h.setStatus_of_marked (beq_iff_eq.mp hm) ht _ _ _
  | join i =>
    obtain ⟨c, result, hh, ht, he⟩ := step?_join.mp hstep
    cases he
    have hb : f.working[i]? = some true := beq_iff_eq.mp hm
    refine ⟨h.settings, h.lengthWaiting, ?_, h.waiting, h.holding, ?_, ?_⟩
    · simp only [after, List.length_eraseIdx, h.lengthWorking]
    · exact h.tasks.trans (unmarked_of_marked h.lengthWorking hb ht).2.symm
    · simp only [after, hb]
      exact h.settled

/-- The permits of the kept tasks are among those of all of them. -/
theorem Thins.permits_le (hp : p.Ledger n) (hq : q.Ledger n) (hh : p.holding = false) :
    p.permits ≤ q.permits := by
  have hsum : ((q.tasks : Multiset Task).map (·.status.permitsOut)).sum ≤
      ((p.tasks : Multiset Task).map (·.status.permitsOut)).sum := by
    rw [h.tasks, Multiset.map_coe, Multiset.map_coe, Multiset.sum_coe, Multiset.sum_coe]
    exact ((sublist_unmarked _ _).map _).sum_le_sum fun _ _ => Nat.zero_le _
  have hpermits := hp.permits
  have hpermits' := hq.permits
  rw [hh] at hpermits
  rw [h.holding_eq_false hh] at hpermits'
  omega

/-- A move for a candidate that is kept can be made where the marked ones are missing. -/
theorem Thins.follow (hR : S.Respects R) (hp : p.Ledger n) (hq : q.Ledger n) (hu : R s u)
    (hstep : step? S m (p, s) = some (p', s')) (hm : f.leavesOut m = false) :
    ∃ q' u', step? S (f.renumbered m) (q, u) = some (q', u') ∧ (f.after m).Thins p' q' ∧
      R s' u' := by
  cases m with
  | acquire =>
    obtain ⟨hh, hw, hpos, he⟩ := step?_acquire.mp hstep
    cases he
    obtain ⟨c, rest, hw⟩ := List.exists_cons_of_ne_nil hw
    obtain ⟨b, marks, hf, -⟩ := h.exists_waiting hw
    -- Fewer tasks are at work, so a permit that is free here is free there.
    have hfree := Nat.lt_of_lt_of_le hpos (h.permits_le hp hq hh)
    have hholding := h.holding_eq_false hh
    obtain ⟨waiting, working, settled⟩ := f
    obtain rfl : waiting = b :: marks := hf
    cases b with
    | true => cases hm
    | false =>
      have hwaiting : q.waiting ≠ [] := by
        rw [h.waiting, hw]
        exact List.cons_ne_nil _ _
      refine ⟨_, u, step?_acquire.mpr ⟨hholding, hwaiting, hfree, rfl⟩, ?_, hu⟩
      exact ⟨h.settings, h.lengthWaiting, h.lengthWorking, h.waiting, rfl, h.tasks, h.settled⟩
  | launch =>
    obtain ⟨c, rest, hh, hw, he⟩ := step?_launch.mp hstep
    cases he
    obtain ⟨b, marks, hf, hlength⟩ := h.exists_waiting hw
    obtain ⟨waiting, working, settled⟩ := f
    obtain rfl : waiting = b :: marks := hf
    cases b with
    | true => cases hm
    | false =>
      have hholding : q.holding = true := by rw [h.holding, hh]; rfl
      have hwaiting : q.waiting = c :: unmarked marks rest := by rw [h.waiting, hw]; rfl
      refine ⟨_, u, step?_launch.mpr ⟨c, _, hholding, hwaiting, rfl⟩, ?_, hu⟩
      refine ⟨h.settings, hlength, ?_, rfl, rfl, ?_, h.settled⟩
      · simp [after, h.lengthWorking]
      · have happend := unmarked_append h.lengthWorking [false] [⟨c, .ready .verify⟩]
        dsimp only
        rw [h.tasks]
        exact happend.symm
  | enter i =>
    obtain ⟨c, status, -, ht, -⟩ := turn_of_enter? hstep
    obtain ⟨hb, ht'⟩ := h.kept ht hm
    obtain ⟨status', u', rfl, henter, hR'⟩ := exists_enter? hR h.settings (ht'.trans ht.symm) hu hstep
    exact ⟨_, u', henter, h.setStatus_of_kept hb ht status' _ _ _ _, hR'⟩
  | answer i =>
    obtain ⟨c, status, -, ht, -⟩ := turn_of_answer? hstep
    obtain ⟨hb, ht'⟩ := h.kept ht hm
    obtain ⟨status', u', rfl, hanswer, hR'⟩ := exists_answer? hR h.settings (ht'.trans ht.symm) hu hstep
    exact ⟨_, u', hanswer, h.setStatus_of_kept hb ht status' _ _ _ _, hR'⟩
  | leave i =>
    obtain ⟨c, result, ht, he⟩ := step?_leave.mp hstep
    cases he
    obtain ⟨hb, ht'⟩ := h.kept ht hm
    exact ⟨_, u, step?_leave.mpr ⟨c, result, ht', rfl⟩, h.setStatus_of_kept hb ht _ _ _ _ _, hu⟩
  | release i =>
    obtain ⟨c, result, ht, he⟩ := step?_release.mp hstep
    cases he
    obtain ⟨hb, ht'⟩ := h.kept ht hm
    exact ⟨_, u, step?_release.mpr ⟨c, result, ht', rfl⟩, h.setStatus_of_kept hb ht _ _ _ _ _, hu⟩
  | join i =>
    obtain ⟨c, result, hh, ht, he⟩ := step?_join.mp hstep
    cases he
    obtain ⟨hb, ht'⟩ := h.kept ht hm
    refine ⟨_, u, step?_join.mpr ⟨c, result, h.holding_eq_false hh, ht', rfl⟩, ?_, hu⟩
    refine ⟨h.settings, h.lengthWaiting, ?_, h.waiting, h.holding, ?_, ?_⟩
    · simp only [after, List.length_eraseIdx, h.lengthWorking]
    · dsimp only
      rw [h.tasks]
      exact (unmarked_of_kept h.lengthWorking hb ht).2.2.symm
    · simp only [after, hb, h.settled]
      rfl

end Step

/-! ### Schedules -/

theorem thins_of_start {cfg : JobConfig} {candidates : List ChainCandidate}
    (hp : start cfg candidates = .ok p) {marks : List Bool}
    (hmarks : marks.length = candidates.length) :
    ∃ q, start cfg (unmarked marks candidates) = .ok q ∧ Thins ⟨marks, [], []⟩ p q := by
  obtain ⟨hlimit, rfl⟩ := start_eq_ok_iff.mp hp
  exact ⟨_, start_eq_ok_iff.mpr ⟨hlimit, rfl⟩, rfl, hmarks, rfl, rfl, rfl, rfl, rfl⟩

theorem Thins.isOver (h : f.Thins p q) (ho : p.isOver = true) : q.isOver = true := by
  simp only [Pool.isOver, Bool.and_eq_true, List.isEmpty_iff, Bool.not_eq_true'] at ho
  obtain ⟨⟨hwaiting, hholding⟩, htasks⟩ := ho
  have hwaiting' : q.waiting = [] := by
    rw [h.waiting, hwaiting]
    exact List.sublist_nil.mp (sublist_unmarked _ _)
  have htasks' : q.tasks = [] := by
    rw [h.tasks, htasks]
    exact List.sublist_nil.mp (sublist_unmarked _ _)
  rw [Pool.isOver, hwaiting', h.holding_eq_false hholding, htasks']
  rfl

theorem silent_cons {moves : List Move} {state mid : Pool × σ}
    (hstep : step? S m state = some mid) : f.Silent S R (m :: moves) state ↔
      (f.leavesOut m = true → R state.2 mid.2) ∧ (f.after m).Silent S R moves mid := by
  constructor
  · intro h
    refine ⟨h [] m moves _ _ rfl rfl hstep, ?_⟩
    intro before m' rest mid' next he hbefore
    refine h (m :: before) m' rest mid' next (by rw [he]; rfl) ?_
    rw [replay?, hstep, Option.bind_some, hbefore]
  · rintro ⟨hhead, htail⟩ before m' rest mid' next he hbefore hnext hout
    cases before with
    | nil =>
      cases he
      cases hbefore
      cases hstep.symm.trans hnext
      exact hhead hout
    | cons m₁ before =>
      cases he
      rw [replay?, hstep, Option.bind_some] at hbefore
      exact htail before m' rest mid' next rfl hbefore hnext hout

/-- A schedule in which the marked candidates leave the store as it is goes on without them. -/
theorem exists_thinned_replay (hR : S.Respects R) {moves : List Move} (hp : p.Ledger n)
    (hq : q.Ledger n) (h : f.Thins p q) (hsilent : f.Silent S R moves (p, s)) (hu : R s u)
    (hm : replay? S moves (p, s) = some (p', s')) :
    ∃ q' u', replay? S (f.thinned moves) (q, u) = some (q', u') ∧
      (moves.foldl after f).Thins p' q' ∧ R s' u' := by
  induction moves generalizing f p q s u with
  | nil =>
    cases hm
    exact ⟨q, u, rfl, h, hu⟩
  | cons m rest ih =>
    obtain ⟨⟨p₁, s₁⟩, hstep, hrest⟩ := Option.bind_eq_some_iff.mp hm
    have hp₁ : p₁.Ledger n := (ledger_of_moved (moved_of_step? hstep) hp).1
    obtain ⟨hhead, hsilent₁⟩ := (silent_cons hstep).mp hsilent
    cases hout : f.leavesOut m with
    | true =>
      -- The store is left in a state like the one before, and the others wait.
      have hs₁ : R s s₁ := hhead hout
      obtain ⟨q', u', hreplay, hthins, hR'⟩ := ih hp₁ hq (h.skip hstep hout) hsilent₁
        (hR.equivalence.trans (hR.equivalence.symm hs₁) hu) hrest
      exact ⟨q', u', by rw [thinned, if_pos hout]; exact hreplay, hthins, hR'⟩
    | false =>
      obtain ⟨q₁, u₁, hstep', hthins₁, hR₁⟩ := h.follow hR hp hq hu hstep hout
      have hq₁ : q₁.Ledger n := (ledger_of_moved (moved_of_step? hstep') hq).1
      obtain ⟨q', u', hreplay, hthins, hR'⟩ := ih hp₁ hq₁ hthins₁ hsilent₁ hR₁ hrest
      refine ⟨q', u', ?_, hthins, hR'⟩
      rw [thinned, if_neg (by rw [hout]; nofun), replay?, hstep', Option.bind_some, hreplay]

end Marks

end Pool

end Downline
