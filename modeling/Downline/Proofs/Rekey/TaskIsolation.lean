import Downline.Proofs.Rekey.Balance
import Downline.Proofs.Rekey.Counting
import Downline.Proofs.Rekey.Thinning

/-! What a failed re-keying task leaves behind: nothing. While the same ids fail all the time, a task that has
written cannot fail any more, so the others could have gone on in the same way without the tasks that fail. -/

namespace Downline

open MemoryStore (store)

/-! ### What memory does not tell apart -/

namespace MemoryStore

/-- Two memories differ at most in how often they were asked. -/
structure Matches (s u : MemoryStore) : Prop extends s.Alike u where
  failing : s.failing = u.failing

theorem Matches.perform {s u : MemoryStore} (h : s.Matches u) (c : Call) :
    (s.perform c).1 = (u.perform c).1 ∧ (s.perform c).2.Matches (u.perform c).2 := by
  obtain ⟨tree, failing, usage⟩ := s
  obtain ⟨tree', failing', usage'⟩ := u
  obtain ⟨⟨htree, hcount⟩, hfailing⟩ := h
  cases htree
  cases hfailing
  cases c with
  | emptyIds | fullIds | credentialCensus => exact ⟨rfl, ⟨rfl, hcount⟩, rfl⟩
  | person | upwardPaths | downwardPath =>
    simp only [MemoryStore.perform, reading, refusal?]
    split <;> exact ⟨rfl, ⟨rfl, hcount⟩, rfl⟩
  | relations id =>
    simp only [MemoryStore.perform, refusal?]
    split
    · exact ⟨rfl, ⟨rfl, hcount⟩, rfl⟩
    · split <;> exact ⟨rfl, ⟨rfl, hcount⟩, rfl⟩
  | rekeyCandidates =>
    simp only [MemoryStore.perform]
    split <;> exact ⟨rfl, ⟨rfl, hcount⟩, rfl⟩
  | setCredentials ids credentials guard =>
    simp only [MemoryStore.perform, refusal?]
    split
    · exact ⟨rfl, ⟨rfl, hcount⟩, rfl⟩
    · exact ⟨rfl, ⟨rfl, congrArg (· + _) hcount⟩, rfl⟩

theorem respects_matches : store.Respects Matches where
  equivalence := {
    refl := fun s => ⟨.refl s, rfl⟩
    symm := fun h => ⟨h.toAlike.symm, h.failing.symm⟩
    trans := fun h h' => ⟨h.toAlike.trans h'.toAlike, h.failing.trans h'.failing⟩ }
  enter _ _ _ h := ⟨rfl, ⟨h.tree, h.nodesWritten⟩, h.failing⟩
  finish c _ s u h := by
    obtain ⟨hanswer, hafter⟩ := h.perform c
    exact ⟨hanswer, ⟨hafter.tree, hafter.nodesWritten⟩, hafter.failing⟩

end MemoryStore

/-! ### Tasks that cannot fail any more -/

/-- The task has ended well, or it is about to write an end that answers. -/
def TaskPhase.Unfailing (failing : IdSet) : TaskPhase → Prop
  | absorb _ last _ => last ∉ failing
  | ended (.ok _) => True
  | _ => False

def TaskStatus.Unfailing (failing : IdSet) (status : TaskStatus) : Prop :=
  ∃ phase, status.phase? = some phase ∧ phase.Unfailing failing

theorem Settled.isFailed_of_unfailing {failing : IdSet} {c : ChainCandidate} {result : TaskResult}
    (h : (TaskStatus.finished result).Unfailing failing) : isFailed ⟨c, result⟩ = false := by
  obtain ⟨phase, hphase, h⟩ := h
  cases result with
  | broke => cases hphase
  | returned result =>
    cases hphase
    cases result with
    | error => exact h.elim
    | ok => rfl

section Calls

variable {s s' : MemoryStore} {settings : TaskSettings} {c : ChainCandidate} {phase phase' : TaskPhase}
  {failing : IdSet} {t t' : Tree}

theorem Work.unfailing (hw : Work failing settings c phase t phase' t')
    (h : phase.Unfailing failing) : phase'.Unfailing failing := by
  cases hw with
  | verify | commit => exact h.elim
  | absorb => trivial
  | refused hr hx =>
    cases phase with
    | verify | commit => exact h.elim
    | ended => cases hr
    | absorb plan last written =>
      cases hr
      obtain ⟨x, hx, hfails⟩ := hx
      rw [List.mem_singleton.mp hx] at hfails
      exact absurd hfails h

/-- A call of a task is not noticed, or it is answered and the task cannot fail any more. -/
theorem MemoryStore.alike_or_unfailing {r : Request TaskPhase} (hr : phase.request? settings c = some r)
    (he : phase.EndAnswers s.failing) : s.Alike (s.perform r.call).2 ∨
      ∃ a, (s.perform r.call).1 = .ok a ∧ (r.next (.ok a)).Unfailing s.failing := by
  cases phase with
  | ended => cases hr
  | verify =>
    cases hr
    exact .inl (alike_perform (.downwardPath c.start c.last settings.maxDepth) nofun).symm
  | commit plan =>
    cases hr
    rcases perform_setCredentials_cases (s := s) plan.targets plan.credentials
      (.holdsPlaceholder settings.placeholder) with ⟨h, -⟩ | ⟨-, -, hsame, -⟩
    · refine .inr ⟨_, h, ?_⟩
      -- An end that is still to be written has answered when the path was read.
      exact TaskPhase.afterCommit_cases (P := (·.Unfailing s.failing)) _ _ trivial he
    · exact .inl hsame.symm
  | absorb plan last written =>
    cases hr
    rcases perform_setCredentials_cases (s := s) [last] plan.credentials
      (.notFull settings.placeholder) with ⟨h, -⟩ | ⟨-, -, hsame, -⟩
    · exact .inr ⟨_, h, trivial⟩
    · exact .inl hsame.symm

/-- What an answer or a refusal makes of the task, and of the memory. -/
theorem MemoryStore.unfailing_of_perform {r : Request TaskPhase}
    (hr : phase.request? settings c = some r) (he : phase.EndAnswers s.failing)
    {x : Except StoreError r.call.Answer} (hx : (s.perform r.call).1 = x.mapError .error) :
    (phase.Unfailing s.failing → (r.next x).Unfailing s.failing) ∧
      (s.Matches (s.perform r.call).2.leave ∨ (r.next x).Unfailing s.failing) := by
  have hnext : ∃ t', Work s.failing settings c phase s.tree (r.next x) t' := by
    obtain ⟨a, ha, hw⟩ | ⟨e, herror, hw⟩ := work_of_perform (s := s) hr
    · cases x with
      | error => cases ha.symm.trans hx
      | ok => cases ha.symm.trans hx; exact ⟨_, hw⟩
    · cases x with
      | error => cases herror.symm.trans hx; exact ⟨_, hw⟩
      | ok => cases herror.symm.trans hx
  obtain ⟨t', hw⟩ := hnext
  refine ⟨hw.unfailing, ?_⟩
  obtain hsame | ⟨a, ha, h⟩ := alike_or_unfailing hr he
  · exact .inl ⟨⟨hsame.tree, hsame.nodesWritten⟩, (failing_perform r.call).symm⟩
  · cases x with
    | error => cases ha.symm.trans hx
    | ok => cases ha.symm.trans hx; exact .inr h

end Calls

namespace Pool

variable {s s' : MemoryStore} {p p' : Pool} {i : Nat} {c : ChainCandidate}
  {status status' : TaskStatus} {m : Move}

theorem mem_crew_of_task (ht : p.tasks[i]? = some ⟨c, status⟩) : (c, status.phase?) ∈ p.crew := by
  obtain ⟨rest, hcrew, -⟩ := exists_crew_setStatus ht
  rw [hcrew]
  exact Multiset.mem_cons_self _ _

theorem unfailing_statusAt {failing : IdSet} {phase : TaskPhase} :
    (statusAt phase).Unfailing failing ↔ phase.Unfailing failing := by
  simp [TaskStatus.Unfailing]

theorem unfailing_calling {failing : IdSet} {phase : TaskPhase} {ticket : Ticket} :
    (TaskStatus.calling phase ticket).Unfailing failing ↔ phase.Unfailing failing := by
  simp [TaskStatus.Unfailing, TaskStatus.phase?]

/-- A task that cannot fail stays so, and whoever makes a call that is noticed cannot fail afterwards. -/
theorem Turn.unfailing {settings : TaskSettings} (h : Turn store settings c status s status' s')
    (he : ∀ phase, status.phase? = some phase → phase.EndAnswers s.failing) :
    (status.Unfailing s.failing → status'.Unfailing s.failing) ∧
      (s.Matches s' ∨ status'.Unfailing s.failing) := by
  cases h with
  | entered hr hs =>
    obtain ⟨-, rfl⟩ := Prod.mk.inj hs
    exact ⟨id, .inl ⟨⟨rfl, rfl⟩, rfl⟩⟩
  | refused hr hs | halted hr hs =>
    obtain ⟨habsurd, -⟩ := Prod.mk.inj hs
    cases habsurd
  | @answered _ r _ a _ _ hr hs =>
    obtain ⟨hx, rfl⟩ := Prod.mk.inj hs
    obtain ⟨hkeep, hnoticed⟩ := MemoryStore.unfailing_of_perform hr (he _ rfl) (x := .ok a) hx
    rw [unfailing_calling, unfailing_statusAt]
    exact ⟨hkeep, hnoticed⟩
  | @failed _ r _ e _ _ hr hs =>
    obtain ⟨hx, rfl⟩ := Prod.mk.inj hs
    obtain ⟨hkeep, hnoticed⟩ := MemoryStore.unfailing_of_perform hr (he _ rfl) (x := .error e) hx
    rw [unfailing_calling, unfailing_statusAt]
    exact ⟨hkeep, hnoticed⟩
  | broke hr hs =>
    obtain ⟨hx, -⟩ := Prod.mk.inj hs
    obtain ⟨a, ha, -⟩ | ⟨e, herror, -⟩ := MemoryStore.work_of_perform (s := s) hr
    · cases ha.symm.trans hx
    · cases herror.symm.trans hx

theorem endAnswers_of_step? {state : Pool × MemoryStore} (h : step? store m (p, s) = some state)
    (he : ∀ c phase, (c, some phase) ∈ p.crew → phase.EndAnswers s.failing) :
    (∀ c phase, (c, some phase) ∈ state.1.crew → phase.EndAnswers s.failing) ∧
      state.2.failing = s.failing := by
  have hreplay : replay? store [m] (p, s) = some state := by
    rw [replay?, h]
    rfl
  refine crew_of_replay
    (I := fun _ crew => ∀ c phase, (c, some phase) ∈ crew → phase.EndAnswers s.failing) ?_ hreplay he
  intro c phase phase' rest t t' hw hcrew
  obtain ⟨hself, hrest⟩ := Crew.forall_cons.mp hcrew
  exact Crew.forall_cons.mpr ⟨hw.endAnswers hself, hrest⟩

/-! ### Foretelling who fails -/

namespace Marks

variable {f : Marks} {failing : IdSet}

/-- The marks of a pass under way: whoever has failed is marked, and nobody who cannot fail any more. -/
structure Foretells (f : Marks) (failing : IdSet) (p : Pool) : Prop where
  waiting : f.waiting.length = p.waiting.length
  working : f.working.length = p.tasks.length
  settled : f.settled = p.settled.map (·.isFailed)
  unfailing : ∀ {i : Nat} {t : Task}, p.tasks[i]? = some t → t.status.Unfailing failing →
    f.working[i]? = some false

theorem Foretells.of_setStatus {permits inFlight : Nat}
    (h : f.Foretells failing { p.setStatus i status' with permits, inFlight })
    (ht : p.tasks[i]? = some ⟨c, status⟩)
    (hstatus : status.Unfailing failing → status'.Unfailing failing) : f.Foretells failing p where
  waiting := h.waiting
  working := h.working.trans (List.length_modify _ _ _)
  settled := h.settled
  unfailing := by
    intro j t hj hself
    have hj' : (p.setStatus i status').tasks[j]? =
        some (if i = j then { t with status := status' } else t) := by
      rw [setStatus, List.getElem?_modify, hj]
      rfl
    refine h.unfailing hj' ?_
    by_cases hij : i = j
    · subst hij
      cases ht.symm.trans hj
      rw [if_pos rfl]
      exact hstatus hself
    · rw [if_neg hij]
      exact hself

/-- The mark of the task started last goes back to the candidates that wait. -/
theorem Foretells.exists_unlaunched {p₁ : Pool} {t : Task}
    (h : f.Foretells failing p₁) (hw : p.waiting = c :: p₁.waiting)
    (htasks : p₁.tasks = p.tasks ++ [t]) (hsettled : p₁.settled = p.settled) :
    ∃ f₀ : Marks, f₀.Foretells failing p ∧ f₀.after .launch = f := by
  obtain ⟨waiting, working, settled⟩ := f
  have hlength := h.working
  rw [htasks, List.length_append] at hlength
  obtain ⟨marks, b, rfl⟩ : ∃ marks b, working = marks ++ [b] := by
    have hne : working ≠ [] := List.ne_nil_of_length_pos (by rw [hlength]; exact Nat.succ_pos _)
    exact ⟨_, _, (List.dropLast_append_getLast hne).symm⟩
  have hmarks : marks.length = p.tasks.length := by
    rw [List.length_append] at hlength
    exact Nat.add_right_cancel hlength
  refine ⟨⟨b :: waiting, marks, settled⟩, ⟨?_, hmarks, hsettled ▸ h.settled, ?_⟩, rfl⟩
  · rw [hw]
    exact congrArg Nat.succ h.waiting
  · intro i t' ht' hself
    obtain ⟨hi, -⟩ := List.getElem?_eq_some_iff.mp ht'
    have hkept : (marks ++ [b])[i]? = some false := by
      refine h.unfailing ?_ hself
      rwa [htasks, List.getElem?_append_left hi]
    rwa [List.getElem?_append_left (hmarks ▸ hi)] at hkept

/-- The mark of the task taken note of last goes back to where the task stood. -/
theorem Foretells.exists_unjoined {p₁ : Pool} {result : TaskResult} (h : f.Foretells failing p₁)
    (ht : p.tasks[i]? = some ⟨c, .finished result⟩) (hw : p₁.waiting = p.waiting)
    (htasks : p₁.tasks = p.tasks.eraseIdx i) (hsettled : p₁.settled = ⟨c, result⟩ :: p.settled) :
    ∃ f₀ : Marks, f₀.Foretells failing p ∧ f₀.after (.join i) = f := by
  obtain ⟨waiting, working, settled⟩ := f
  obtain ⟨hi, -⟩ := List.getElem?_eq_some_iff.mp ht
  have hlength : working.length + 1 = p.tasks.length := by
    have hlength := h.working
    rw [htasks, List.length_eraseIdx, if_pos hi] at hlength
    dsimp only at hlength
    omega
  have hiw : i ≤ working.length := by omega
  have hsettled' : settled = Settled.isFailed ⟨c, result⟩ :: p.settled.map (·.isFailed) := by
    rw [← List.map_cons, ← hsettled]
    exact h.settled
  refine ⟨⟨waiting, working.insertIdx i (Settled.isFailed ⟨c, result⟩), p.settled.map (·.isFailed)⟩,
    ⟨hw ▸ h.waiting, ?_, rfl, ?_⟩, ?_⟩
  · rw [List.length_insertIdx, if_pos hiw, hlength]
  · intro j t hj hself
    have hothers {k : Nat} (hk : p₁.tasks[k]? = some t) : working[k]? = some false :=
      h.unfailing hk hself
    simp only [htasks, List.getElem?_eraseIdx] at hothers
    rw [List.getElem?_insertIdx]
    rcases Nat.lt_trichotomy j i with hlt | rfl | hgt
    · rw [if_pos hlt]
      exact hothers (by rw [if_pos hlt, hj])
    · cases ht.symm.trans hj
      rw [if_neg (Nat.lt_irrefl _), if_pos rfl, if_pos hiw, Settled.isFailed_of_unfailing hself]
    · rw [if_neg (by omega), if_neg (by omega)]
      refine hothers ?_
      rw [if_neg (by omega), Nat.sub_add_cancel (by omega), hj]
  · simp only [after, List.eraseIdx_insertIdx_self, List.getElem?_insertIdx_self, if_pos hiw, hsettled']
    rfl

/-- Marks that foretell who fails after a move come from marks that foretold it before. -/
theorem Foretells.exists_before (h : f.Foretells s.failing p')
    (hstep : step? store m (p, s) = some (p', s'))
    (he : ∀ c phase, (c, some phase) ∈ p.crew → phase.EndAnswers s.failing) :
    ∃ f₀ : Marks, f₀.Foretells s.failing p ∧ f₀.after m = f ∧
      (f₀.leavesOut m = true → s.Matches s') := by
  have hsame : s.Matches s := MemoryStore.respects_matches.equivalence.refl s
  -- A marked task cannot be one that cannot fail, so its call was not noticed.
  have hturned {i : Nat} {c : ChainCandidate} {status status' : TaskStatus}
      (ht : p.tasks[i]? = some ⟨c, status⟩) (hturn : Turn store p.settings c status s status' s')
      (h : f.Foretells s.failing (p.setStatus i status')) :
      f.Foretells s.failing p ∧ ((f.working[i]? == some true) = true → s.Matches s') := by
    have hends : ∀ phase, status.phase? = some phase → phase.EndAnswers s.failing :=
      fun phase hphase => he c phase (hphase ▸ mem_crew_of_task ht)
    obtain ⟨hkeep, hnoticed⟩ := hturn.unfailing hends
    refine ⟨h.of_setStatus ht hkeep, fun hmarked => hnoticed.resolve_right fun hunfailing => ?_⟩
    have ht' : (p.setStatus i status').tasks[i]? = some ⟨c, status'⟩ := by
      rw [setStatus, List.getElem?_modify, ht]
      simp
    rw [h.unfailing ht' hunfailing] at hmarked
    cases hmarked
  cases m with
  | acquire =>
    obtain ⟨hh, hw, hp, heq⟩ := step?_acquire.mp hstep
    cases heq
    exact ⟨f, ⟨h.waiting, h.working, h.settled, h.unfailing⟩, rfl, fun _ => hsame⟩
  | launch =>
    obtain ⟨c, rest, hh, hw, heq⟩ := step?_launch.mp hstep
    cases heq
    obtain ⟨f₀, hbefore, hafter⟩ := h.exists_unlaunched hw rfl rfl
    exact ⟨f₀, hbefore, hafter, fun _ => hsame⟩
  | enter i =>
    rw [step?] at hstep
    obtain ⟨c, status, status', ht, hturn, rfl⟩ := turn_of_enter? hstep
    obtain ⟨hbefore, hquiet⟩ := hturned ht hturn h
    exact ⟨f, hbefore, rfl, hquiet⟩
  | answer i =>
    rw [step?] at hstep
    obtain ⟨c, status, status', ht, hturn, rfl⟩ := turn_of_answer? hstep
    obtain ⟨hbefore, hquiet⟩ := hturned ht hturn h
    exact ⟨f, hbefore, rfl, hquiet⟩
  | leave i =>
    obtain ⟨c, result, ht, heq⟩ := step?_leave.mp hstep
    cases heq
    exact ⟨f, h.of_setStatus ht id, rfl, fun _ => hsame⟩
  | release i =>
    obtain ⟨c, result, ht, heq⟩ := step?_release.mp hstep
    cases heq
    exact ⟨f, h.of_setStatus ht id, rfl, fun _ => hsame⟩
  | join i =>
    obtain ⟨c, result, hh, ht, heq⟩ := step?_join.mp hstep
    cases heq
    obtain ⟨f₀, hbefore, hafter⟩ := h.exists_unjoined ht rfl rfl rfl
    exact ⟨f₀, hbefore, hafter, fun _ => hsame⟩

/-- Who fails in a pass that comes to its end can be told from the start, and what these tasks do is not
noticed. -/
theorem exists_foretells {moves : List Move} (h : replay? store moves (p, s) = some (p', s'))
    (ho : p'.isOver = true)
    (he : ∀ c phase, (c, some phase) ∈ p.crew → phase.EndAnswers s.failing) :
    ∃ f : Marks, f.Foretells s.failing p ∧
      moves.foldl after f = ⟨[], [], p'.settled.map (·.isFailed)⟩ ∧
      f.Silent store MemoryStore.Matches moves (p, s) := by
  -- Backwards from the end, where every candidate has been settled.
  induction moves generalizing p s with
  | nil =>
    cases h
    simp only [isOver, Bool.and_eq_true, List.isEmpty_iff] at ho
    obtain ⟨⟨hwaiting, -⟩, htasks⟩ := ho
    refine ⟨_, ⟨by rw [hwaiting]; rfl, by rw [htasks]; rfl, rfl, ?_⟩, rfl, ?_⟩
    · intro i t ht
      rw [htasks] at ht
      cases ht
    · intro before m rest mid next hsplit
      cases before <;> cases hsplit
  | cons m rest ih =>
    obtain ⟨⟨p₁, s₁⟩, hstep, hrest⟩ := Option.bind_eq_some_iff.mp h
    obtain ⟨he₁, hfailing⟩ := endAnswers_of_step? hstep he
    dsimp only at he₁ hfailing
    rw [← hfailing] at he₁
    obtain ⟨f, hf, hend, hsilent⟩ := ih hrest he₁
    rw [hfailing] at hf
    obtain ⟨f₀, hf₀, rfl, hquiet⟩ := hf.exists_before hstep he
    exact ⟨f₀, hf₀, hend, (silent_cons hstep).mpr ⟨hquiet, hsilent⟩⟩

end Marks

end Pool

/-- Memory never breaks down over a task, so who has failed was refused a call. -/
theorem error_of_isFailed {cfg : JobConfig} {candidates : List ChainCandidate}
    {moves : List Pool.Move} {p p' : Pool} {s s' : MemoryStore}
    (hp : Pool.start cfg candidates = .ok p)
    (h : Pool.replay? store moves (p, s) = some (p', s')) (ho : p'.isOver = true) {d : Settled}
    (hd : d ∈ p'.settled) (hfailed : d.isFailed = true) : ∃ e, d.result = .returned (.error e) := by
  obtain ⟨c, result⟩ := d
  have hcrew : (c, result.phase?) ∈ p'.crew := by
    rw [Pool.crew_of_isOver ho]
    exact Multiset.mem_map_of_mem (fun d : Settled => (d.candidate, d.result.phase?))
      (Multiset.mem_coe.mpr hd)
  obtain ⟨phase, hphase⟩ := (counted_of_replay hp h).1.unbroken _ hcrew
  cases result with
  | broke => cases hphase
  | returned result =>
    cases result with
    | ok => cases hfailed
    | error e => exact ⟨e, rfl⟩

open Pool (Marks)

/-- Failed re-keying tasks are isolated, over any candidates and under every schedule of a pass. Some
candidates can be marked from the start so that those settled with a failure, each over a refused call, are
the marked ones. No move of a marked candidate changes anybody, and without the marked candidates the pass
can go through the other moves of the schedule, to the same people, the same count of written ones and the same
results of everyone else. -/
theorem failed_tasks_are_isolated {cfg : JobConfig} {candidates : List ChainCandidate}
    {moves : List Pool.Move} {p p' : Pool} {s s' : MemoryStore}
    (hp : Pool.start cfg candidates = .ok p)
    (h : Pool.replay? store moves (p, s) = some (p', s')) (ho : p'.isOver = true) :
    ∃ marks : List Bool, marks.length = candidates.length ∧
      (moves.foldl Marks.after ⟨marks, [], []⟩).settled = p'.settled.map (·.isFailed) ∧
      (∀ d ∈ p'.settled, d.isFailed = true → ∃ e, d.result = .returned (.error e)) ∧
      (∀ before m rest mid next, moves = before ++ m :: rest →
        Pool.replay? store before (p, s) = some mid → Pool.step? store m mid = some next →
        (before.foldl Marks.after ⟨marks, [], []⟩).leavesOut m = true →
          next.2.tree = mid.2.tree) ∧
      ∃ q q' u, Pool.start cfg (unmarked marks candidates) = .ok q ∧
        Pool.replay? store (Marks.thinned ⟨marks, [], []⟩ moves) (q, s) = some (q', u) ∧
        q'.isOver = true ∧ u.tree = s'.tree ∧ u.failing = s'.failing ∧
        u.usage.nodesWritten = s'.usage.nodesWritten ∧
        q'.settled = p'.settled.filter (!·.isFailed) ∧
        (q'.settled.map (·.candidate)).Perm (unmarked marks candidates) := by
  have hverify : ∀ c phase, (c, some phase) ∈ p.crew → phase.EndAnswers s.failing := by
    intro c phase hc
    cases Pool.verify_of_start hp hc
    trivial
  obtain ⟨⟨marks, working, settled⟩, hf, hend, hsilent⟩ := Marks.exists_foretells h ho hverify
  obtain ⟨hmarks, hworking, hsettled⟩ : marks.length = candidates.length ∧ working = [] ∧
      settled = [] := by
    obtain ⟨-, rfl⟩ := Pool.start_eq_ok_iff.mp hp
    exact ⟨hf.waiting, List.eq_nil_of_length_eq_zero hf.working, hf.settled⟩
  subst hworking hsettled
  obtain ⟨q, hq, hthins⟩ := Marks.thins_of_start hp hmarks
  obtain ⟨q', u, hreplay, hthins', hmatches⟩ := Marks.exists_thinned_replay
    MemoryStore.respects_matches (Pool.ledger_of_start hp).1 (Pool.ledger_of_start hq).1 hthins
    hsilent (MemoryStore.respects_matches.equivalence.refl s) h
  have hover : q'.isOver = true := hthins'.isOver ho
  have hothers : q'.settled = p'.settled.filter (!·.isFailed) := by
    rw [hthins'.settled, hend, unmarked_map]
  refine ⟨marks, hmarks, by rw [hend], fun d hd => error_of_isFailed hp h ho hd, ?_, ?_⟩
  · intro before m rest mid next hsplit hbefore hstep hout
    exact (hsilent before m rest mid next hsplit hbefore hstep hout).tree.symm
  · exact ⟨q, q', u, hq, hreplay, hover, hmatches.tree.symm, hmatches.failing.symm,
      hmatches.nodesWritten.symm, hothers, Pool.settled_perm_of_replay hq hreplay hover⟩

/-- While one task is refused over a failing id, another reads its path and writes it in between; without the
first task the second does the same at once. -/
theorem failed_task_spares_household : ∃ p p' s' q q' u,
    Pool.start { placeholderPassword := "changeme" } [⟨⟨"root"⟩, ⟨"a"⟩⟩, ⟨⟨"root"⟩, ⟨"c"⟩⟩] = .ok p ∧
      Pool.replay? store [.acquire, .launch, .acquire, .launch, .enter 0, .enter 1, .answer 0,
        .answer 1, .enter 1, .leave 0, .answer 1, .leave 1, .release 0, .release 1, .join 0, .join 0]
        (p, { tree := .household, failing := {⟨"a"⟩} }) = some (p', s') ∧
      p'.isOver = true ∧ p'.settled.map (·.isFailed) = [false, true] ∧
      s'.tree.credentialsOf ⟨"c"⟩ = some ⟨"boss", "real"⟩ ∧
      Pool.start { placeholderPassword := "changeme" } [⟨⟨"root"⟩, ⟨"c"⟩⟩] = .ok q ∧
      Pool.replay? store [.acquire, .launch, .enter 0, .answer 0, .enter 0, .answer 0, .leave 0,
        .release 0, .join 0] (q, { tree := .household, failing := {⟨"a"⟩} }) = some (q', u) ∧
      u.tree = s'.tree ∧ q'.settled = p'.settled.filter (!·.isFailed) := by
  obtain ⟨p, hp⟩ : ∃ p, Pool.start { placeholderPassword := "changeme" }
    [⟨⟨"root"⟩, ⟨"a"⟩⟩, ⟨⟨"root"⟩, ⟨"c"⟩⟩] = .ok p := ⟨_, rfl⟩
  have hrun : (Pool.replay? store [.acquire, .launch, .acquire, .launch, .enter 0, .enter 1, .answer 0,
      .answer 1, .enter 1, .leave 0, .answer 1, .leave 1, .release 0, .release 1, .join 0, .join 0]
      (p, { tree := .household, failing := {⟨"a"⟩} })).map (fun state =>
        (state.1.isOver, state.1.settled.map (·.isFailed), state.2.tree.credentialsOf ⟨"c"⟩)) =
      some (true, [false, true], some ⟨"boss", "real"⟩) := by
    cases hp
    decide +kernel
  obtain ⟨⟨p', s'⟩, hmoves, hend⟩ := Option.map_eq_some_iff.mp hrun
  obtain ⟨ho, hend⟩ := Prod.mk.inj hend
  obtain ⟨hfailed, hlogin⟩ := Prod.mk.inj hend
  obtain ⟨marks, hlength, hmarks, -, -, q, q', u, hq, hreplay, -, htree, -, -, hsettled, -⟩ :=
    failed_tasks_are_isolated hp hmoves ho
  -- The marks can only be those of the two results.
  obtain ⟨x, y, rfl⟩ := List.length_eq_two.mp hlength
  obtain ⟨rfl, hx⟩ := List.cons.inj (hmarks.trans hfailed)
  obtain ⟨rfl, -⟩ := List.cons.inj hx
  exact ⟨p, p', s', q, q', u, hp, hmoves, ho, hfailed, hlogin, hq, hreplay, htree, hsettled⟩

end Downline
