import Downline.Proofs.Outages
import Downline.Proofs.Rekey.Progress
import Mathlib.Algebra.GroupWithZero.Nat

/-! A re-keying pass over memory, seen as its crew: every candidate with the phase that its task has
reached, wherever the pool keeps it. All that a move can do to the crew is to let one task carry out its
next call, so what these calls preserve holds under every schedule, also while outages come and go. -/

namespace Downline

/-- The phase that a finished task has reached; none, if it broke down. -/
def TaskResult.phase? : TaskResult → Option TaskPhase
  | returned result => some (.ended result)
  | broke _ => none

/-- The phase that a started task has reached. -/
def TaskStatus.phase? : TaskStatus → Option TaskPhase
  | ready phase => some phase
  | calling phase _ => some phase
  | leaving result => result.phase?
  | releasing result => result.phase?
  | finished result => result.phase?

/-- The people whom a task has written so far, by its own account. -/
def TaskPhase.written : TaskPhase → Nat
  | absorb _ _ written => written
  | ended (.ok (.rekeyed written)) => written
  | _ => 0

namespace Settled

/-- Whether a task has written its chain. -/
def isRekeyed (d : Settled) : Bool :=
  match d.result with
  | .returned (.ok (.rekeyed _)) => true
  | _ => false

/-- Whether a task has left its chain alone. -/
def isSkipped (d : Settled) : Bool :=
  match d.result with
  | .returned (.ok (.skipped _)) => true
  | _ => false

/-- Whether a task failed or broke down. -/
def isFailed (d : Settled) : Bool :=
  match d.result with
  | .returned (.ok _) => false
  | _ => true

/-- The people whom a finished task says that it has written. -/
def written (d : Settled) : Nat := d.result.phase?.elim 0 TaskPhase.written

end Settled

/-- The candidates of a pass, with the phase of each task that did not break down. -/
abbrev Crew := Multiset (ChainCandidate × Option TaskPhase)

/-- The people whom the tasks have written so far, by their own account. -/
def Crew.written (crew : Crew) : Nat := (crew.map fun m => m.2.elim 0 TaskPhase.written).sum

theorem Crew.written_cons {c : ChainCandidate} {phase : TaskPhase} {rest : Crew} :
    Crew.written ((c, some phase) ::ₘ rest) = phase.written + rest.written := by
  rw [written, Multiset.map_cons, Multiset.sum_cons]
  rfl

/-- Tasks that are about to read their paths have written nobody. -/
theorem Crew.written_of_verify {crew : Crew} (hv : ∀ m ∈ crew, m.2 = some .verify) :
    crew.written = 0 := by
  rw [written, Multiset.sum_eq_zero]
  intro n hn
  obtain ⟨m, hm, rfl⟩ := Multiset.mem_map.mp hn
  rw [hv m hm]
  rfl

/-- What holds of one member and of all the others holds of a crew. -/
theorem Crew.forall_cons {P : ChainCandidate → TaskPhase → Prop} {c : ChainCandidate}
    {phase : TaskPhase} {rest : Crew} :
    (∀ d phase₁, (d, some phase₁) ∈ (c, some phase) ::ₘ rest → P d phase₁) ↔
      P c phase ∧ ∀ d phase₁, (d, some phase₁) ∈ rest → P d phase₁ := by
  constructor
  · intro h
    exact ⟨h c phase (Multiset.mem_cons_self _ _),
      fun d phase₁ hd => h d phase₁ (Multiset.mem_cons_of_mem hd)⟩
  · rintro ⟨hself, hrest⟩ d phase₁ hd
    rcases Multiset.mem_cons.mp hd with he | hd
    · cases he
      exact hself
    · exact hrest d phase₁ hd

/-- What one call of a task to memory does: to the task, and to the tree. -/
inductive Work (failing : IdSet) (settings : TaskSettings) (c : ChainCandidate) :
    TaskPhase → Tree → TaskPhase → Tree → Prop where
  | refused {phase : TaskPhase} {r : Request TaskPhase} {e : StoreError} {t : Tree}
      (hr : phase.request? settings c = some r) (hx : ∃ x ∈ r.call.names, x ∈ failing) :
      Work failing settings c phase t (r.next (.error e)) t
  | verify {t : Tree} (hs : c.start ∉ failing) (hl : c.last ∉ failing) :
      Work failing settings c .verify t
        (.afterPath settings (.ok (t.downwardPath? c.start c.last settings.maxDepth))) t
  | commit {plan : RekeyPlan} {t : Tree} :
      Work failing settings c (.commit plan) t
        (.afterCommit plan
          (.ok (t.write plan.targets plan.credentials (.holdsPlaceholder settings.placeholder)).1))
        (t.write plan.targets plan.credentials (.holdsPlaceholder settings.placeholder)).2
  | absorb {plan : RekeyPlan} {last : PersonId} {written : Nat} {t : Tree} :
      Work failing settings c (.absorb plan last written) t
        (.afterAbsorb written
          (.ok (t.write [last] plan.credentials (.notFull settings.placeholder)).1))
        (t.write [last] plan.credentials (.notFull settings.placeholder)).2

namespace MemoryStore

variable {s : MemoryStore} {settings : TaskSettings} {c : ChainCandidate} {phase : TaskPhase}
  {r : Request TaskPhase}

/-- Memory answers a task's call, or refuses it; it never breaks down over it. -/
theorem work_of_perform (hr : phase.request? settings c = some r) :
    (∃ a, (s.perform r.call).1 = .ok a ∧
      Work s.failing settings c phase s.tree (r.next (.ok a)) (s.perform r.call).2.tree) ∨
    ∃ e, (s.perform r.call).1 = .error (.error e) ∧
      Work s.failing settings c phase s.tree (r.next (.error e)) (s.perform r.call).2.tree := by
  cases phase with
  | ended => cases hr
  | verify =>
    have hr' := hr
    cases hr
    rcases reading_cases (s := s) [c.start, c.last]
      (s.tree.downwardPath? c.start c.last settings.maxDepth) with ⟨h, hnone⟩ | ⟨e, h, hx⟩
    · have hs : c.start ∉ s.failing := hnone _ List.mem_cons_self
      have hl : c.last ∉ s.failing := hnone _ (List.mem_cons_of_mem _ List.mem_cons_self)
      exact .inl ⟨_, by rw [perform, h], by rw [perform, h]; exact .verify hs hl⟩
    · exact .inr ⟨e, by rw [perform, h], by rw [perform, h]; exact .refused hr' hx⟩
  | commit plan =>
    have hr' := hr
    cases hr
    rcases perform_setCredentials_cases (s := s) plan.targets plan.credentials
      (.holdsPlaceholder settings.placeholder) with ⟨h, ht, -⟩ | ⟨e, h, hsame, hx⟩
    · exact .inl ⟨_, h, by rw [ht]; exact .commit⟩
    · exact .inr ⟨e, h, by rw [hsame.tree]; exact .refused hr' hx⟩
  | absorb plan last written =>
    have hr' := hr
    cases hr
    rcases perform_setCredentials_cases (s := s) [last] plan.credentials
      (.notFull settings.placeholder) with ⟨h, ht, -⟩ | ⟨e, h, hsame, hx⟩
    · exact .inl ⟨_, h, by rw [ht]; exact .absorb⟩
    · exact .inr ⟨e, h, by rw [hsame.tree]; exact .refused hr' hx⟩

end MemoryStore

section Hosts

variable {σ : Type} {S : Store σ} {memory : σ → MemoryStore} {may : IdSet → Prop} {I : σ → Prop}

/-- A call of a task that has been taken in is work on the tree, done or refused. -/
theorem Store.Hosts.work_of_finish (hS : S.Hosts memory may I) {s s' : σ} (hs : I s)
    {settings : TaskSettings} {c : ChainCandidate} {phase : TaskPhase} {r : Request TaskPhase}
    (hr : phase.request? settings c = some r) {ticket : Ticket}
    {answer : Except Fault r.call.Answer} (hf : S.finish r.call ticket s = (answer, s')) :
    I s' ∧ ∃ failing, may failing ∧
      ((∃ a, answer = .ok a ∧
          Work failing settings c phase (memory s).tree (r.next (.ok a)) (memory s').tree) ∨
        ∃ e, answer = .error (.error e) ∧
          Work failing settings c phase (memory s).tree (r.next (.error e)) (memory s').tree) := by
  obtain ⟨m, s'', ha, hm, hfinish, hs'', ha'⟩ := hS.finish r.call ticket s hs
  rw [hfinish, Prod.mk.injEq] at hf
  obtain ⟨rfl, rfl⟩ := hf
  refine ⟨hs'', m.failing, hm, ?_⟩
  rw [← ha.tree, ha'.tree]
  exact MemoryStore.work_of_perform hr

end Hosts

namespace Pool

variable {p p' : Pool} {c : ChainCandidate} {status : TaskStatus}

/-- Everyone of a pass: who waits, who works, and who is done. -/
def crew (p : Pool) : Crew :=
  (p.waiting : Multiset ChainCandidate).map (fun c => (c, some .verify)) +
    (p.tasks : Multiset Task).map (fun t => (t.candidate, t.status.phase?)) +
    (p.settled : Multiset Settled).map (fun d => (d.candidate, d.result.phase?))

@[simp]
theorem phase?_statusAt (phase : TaskPhase) : (statusAt phase).phase? = some phase := by
  cases phase <;> rfl

theorem exists_crew_setStatus {i : Nat} (ht : p.tasks[i]? = some ⟨c, status⟩) :
    ∃ rest : Crew, p.crew = (c, status.phase?) ::ₘ rest ∧
      ∀ status', (p.setStatus i status').crew = (c, status'.phase?) ::ₘ rest := by
  obtain ⟨others, htasks, hmodify, -⟩ := exists_other_tasks ht
  refine ⟨(p.waiting : Multiset ChainCandidate).map (fun c => (c, some .verify)) +
    others.map (fun t => (t.candidate, t.status.phase?)) +
    (p.settled : Multiset Settled).map (fun d => (d.candidate, d.result.phase?)), ?_, fun st => ?_⟩
  · rw [crew, htasks, Multiset.map_cons, Multiset.add_cons, Multiset.cons_add]
  · rw [crew, hmodify, Multiset.map_cons, Multiset.add_cons, Multiset.cons_add]
    rfl

section Hosts

variable {σ : Type} {S : Store σ} {memory : σ → MemoryStore} {may : IdSet → Prop} {I : σ → Prop}
  (hS : S.Hosts memory may I)
include hS

/-- A move keeps the tree and the crew, or one task carries out its next call. -/
theorem crew_of_moved {state state' : Pool × σ} (h : Moved S state state') (hs : I state.2) :
    (I state'.2 ∧ state'.1.settings = state.1.settings) ∧
      (((memory state'.2).tree = (memory state.2).tree ∧ state'.1.crew = state.1.crew) ∨
        ∃ failing c phase phase' rest, may failing ∧ state.1.crew = (c, some phase) ::ₘ rest ∧
          state'.1.crew = (c, some phase') ::ₘ rest ∧
          Work failing state.1.settings c phase (memory state.2).tree phase'
            (memory state'.2).tree) := by
  cases h with
  | acquire => exact ⟨⟨hs, rfl⟩, .inl ⟨rfl, rfl⟩⟩
  | @launch p s c rest hh hw =>
    -- Who waited has a task now, and that task has done nothing yet.
    refine ⟨⟨hs, rfl⟩, .inl ⟨rfl, ?_⟩⟩
    simp only [crew, hw, coe_append_singleton, ← Multiset.cons_coe, Multiset.map_cons,
      Multiset.add_cons, Multiset.cons_add, TaskStatus.phase?]
  | @turn p s i c status status' s' ht hturn =>
    obtain ⟨rest, hcrew, hcrew'⟩ := exists_crew_setStatus ht
    cases hturn with
    | @entered phase r ticket s s' hr he =>
      obtain ⟨_, _, he', hs', ha⟩ := hS.enter r.call s hs
      cases he.symm.trans he'
      exact ⟨⟨hs', rfl⟩, .inl ⟨ha.tree, by rw [hcrew', hcrew]; rfl⟩⟩
    -- Every call is taken in, and only answered or refused when it is carried out.
    | @refused phase r e s s' hr he | @halted phase r e s s' hr he =>
      obtain ⟨_, _, he', -⟩ := hS.enter r.call s hs
      cases he.symm.trans he'
    | answered hr hf =>
      obtain ⟨hs', failing, hmay, ⟨a, ha, hw⟩ | ⟨e, he, -⟩⟩ := hS.work_of_finish hs hr hf
      · cases ha
        refine ⟨⟨hs', rfl⟩, .inr ⟨failing, c, _, _, rest, hmay, hcrew, ?_, hw⟩⟩
        rw [hcrew', phase?_statusAt]
      · cases he
    | failed hr hf =>
      obtain ⟨hs', failing, hmay, ⟨a, ha, -⟩ | ⟨e, he, hw⟩⟩ := hS.work_of_finish hs hr hf
      · cases ha
      · cases he
        refine ⟨⟨hs', rfl⟩, .inr ⟨failing, c, _, _, rest, hmay, hcrew, ?_, hw⟩⟩
        rw [hcrew', phase?_statusAt]
    | broke hr hf =>
      obtain ⟨-, failing, -, ⟨a, ha, -⟩ | ⟨e, he, -⟩⟩ := hS.work_of_finish hs hr hf
      · cases ha
      · cases he
  | leave ht =>
    obtain ⟨rest, hcrew, hcrew'⟩ := exists_crew_setStatus ht
    exact ⟨⟨hs, rfl⟩, .inl ⟨rfl, (hcrew' (.releasing _)).trans hcrew.symm⟩⟩
  | release ht =>
    obtain ⟨rest, hcrew, hcrew'⟩ := exists_crew_setStatus ht
    exact ⟨⟨hs, rfl⟩, .inl ⟨rfl, (hcrew' (.finished _)).trans hcrew.symm⟩⟩
  | join hh ht =>
    obtain ⟨others, htasks, -, herase⟩ := exists_other_tasks ht
    refine ⟨⟨hs, rfl⟩, .inl ⟨rfl, ?_⟩⟩
    simp only [crew, htasks, herase, ← Multiset.cons_coe, Multiset.map_cons, Multiset.add_cons,
      Multiset.cons_add, TaskStatus.phase?]

/-- What the calls of the tasks preserve, every schedule preserves. -/
theorem crew_of_hosted_replay {J : Tree → Crew → Prop} {s s' : σ}
    (hwork : ∀ {failing c phase phase' rest t t'}, may failing →
      Work failing p.settings c phase t phase' t' →
        J t ((c, some phase) ::ₘ rest) → J t' ((c, some phase') ::ₘ rest))
    {moves : List Move} (h : replay? S moves (p, s) = some (p', s')) (hs : I s)
    (hJ : J (memory s).tree p.crew) : J (memory s').tree p'.crew ∧ I s' := by
  have hinv : (p'.settings = p.settings ∧ I s') ∧ J (memory s').tree p'.crew := by
    refine invariant_of_replay (I := fun state => (state.1.settings = p.settings ∧ I state.2) ∧
      J (memory state.2).tree state.1.crew) ?_ h ⟨⟨rfl, hs⟩, hJ⟩
    intro state state' hm hh
    obtain ⟨⟨hset, hs⟩, hJ⟩ := hh
    obtain ⟨⟨hs', hset'⟩, ⟨htree, hcrew⟩ |
      ⟨failing, c, phase, phase', rest, hmay, hcrew, hcrew', hw⟩⟩ := crew_of_moved hS hm hs
    · rw [htree, hcrew]
      exact ⟨⟨hset'.trans hset, hs'⟩, hJ⟩
    · rw [hset] at hw
      rw [hcrew] at hJ
      rw [hcrew']
      exact ⟨⟨hset'.trans hset, hs'⟩, hwork hmay hw hJ⟩
  exact ⟨hinv.2, hinv.1.2⟩

end Hosts

theorem crew_of_replay {I : Tree → Crew → Prop} {s s' : MemoryStore}
    (hwork : ∀ {c phase phase' rest t t'}, Work s.failing p.settings c phase t phase' t' →
      I t ((c, some phase) ::ₘ rest) → I t' ((c, some phase') ::ₘ rest))
    {moves : List Move} (h : replay? MemoryStore.store moves (p, s) = some (p', s'))
    (hI : I s.tree p.crew) : I s'.tree p'.crew ∧ s'.failing = s.failing := by
  refine crew_of_hosted_replay (MemoryStore.hosts s.failing) ?_ h rfl hI
  rintro failing c phase phase' rest t t' rfl
  exact hwork

/-- A pass begins with all its candidates about to read their paths. -/
theorem mem_crew_of_start {cfg : JobConfig} {candidates : List ChainCandidate}
    (h : start cfg candidates = .ok p) {m : ChainCandidate × Option TaskPhase} :
    m ∈ p.crew ↔ ∃ c ∈ candidates, (c, some .verify) = m := by
  obtain ⟨-, rfl⟩ := start_eq_ok_iff.mp h
  simp [crew]

theorem verify_of_start {cfg : JobConfig} {candidates : List ChainCandidate}
    (h : start cfg candidates = .ok p) {m : ChainCandidate × Option TaskPhase} (hm : m ∈ p.crew) :
    m.2 = some .verify := by
  obtain ⟨c, -, rfl⟩ := (mem_crew_of_start h).mp hm
  rfl

theorem crew_of_isOver (ho : p.isOver = true) :
    p.crew = (p.settled : Multiset Settled).map fun d => (d.candidate, d.result.phase?) := by
  simp only [isOver, Bool.and_eq_true, List.isEmpty_iff] at ho
  simp [crew, ho.1.1, ho.2]

theorem ended_of_isOver (ho : p.isOver = true) {phase : TaskPhase}
    (hc : (c, some phase) ∈ p.crew) : ∃ result, phase = .ended result := by
  rw [crew_of_isOver ho, Multiset.mem_map] at hc
  obtain ⟨⟨c', result⟩, -, he⟩ := hc
  cases result with
  | returned result =>
    cases he
    exact ⟨result, rfl⟩
  | broke reason => cases he

theorem eq_of_outcome {pass : RekeyPass} (h : p.outcome = .ok pass) :
    pass = { report := p.report, settled := p.settled.reverse } := by
  unfold outcome at h
  dsimp only at h
  split at h
  · cases h
  · cases h
    rfl

/-- A pass in which no task broke down has a report. -/
theorem outcome_of_unbroken (ho : p.isOver = true)
    (hc : ∀ m ∈ p.crew, ∃ phase, m.2 = some phase) :
    p.outcome = .ok { report := p.report, settled := p.settled.reverse } := by
  have hnone : p.settled.reverse.any Settled.isStopped = false := by
    rw [List.any_eq_false]
    intro d hd hstop
    have hm : (d.candidate, d.result.phase?) ∈ p.crew := by
      rw [crew_of_isOver ho]
      exact Multiset.mem_map_of_mem _ (Multiset.mem_coe.mpr (List.mem_reverse.mp hd))
    obtain ⟨phase, hphase⟩ := hc _ hm
    obtain ⟨c, result⟩ := d
    cases result with
    | returned => cases hstop
    | broke => cases hphase
  simp only [outcome, hnone, Bool.false_eq_true, if_false]

/-- The report of a pass counts the tasks by their results and adds up what they have written. -/
theorem report_eq (p : Pool) : p.report = {
    passes := 1
    candidates := p.candidates
    rekeyed := p.settled.countP (·.isRekeyed)
    skipped := p.settled.countP (·.isSkipped)
    failed := p.settled.countP (·.isFailed)
    nodesWritten := (p.settled.map (·.written)).sum
    peakInFlight := p.peak } := by
  unfold report
  induction p.settled with
  | nil => rfl
  | cons d l ih =>
    rw [List.foldr_cons, ih, List.map_cons, List.sum_cons, Nat.add_comm]
    simp only [List.countP_cons]
    obtain ⟨c, result⟩ := d
    rcases result with ((e | (written | reason)) | reason) <;> rfl

theorem candidates_report (p : Pool) : p.report.candidates = p.candidates := by rw [report_eq]

theorem failed_report (p : Pool) : p.report.failed = p.settled.countP (·.isFailed) := by
  rw [report_eq]

theorem nodesWritten_report (ho : p.isOver = true) : p.report.nodesWritten = p.crew.written := by
  rw [report_eq, crew_of_isOver ho, Crew.written, Multiset.map_map, Multiset.map_coe,
    Multiset.sum_coe]
  rfl

end Pool

end Downline
