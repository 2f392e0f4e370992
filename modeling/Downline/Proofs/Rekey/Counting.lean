import Downline.Proofs.Discovery
import Downline.Proofs.Rekey.Containment

/-! What re-keying tasks say that they have written, while the same ids fail all the time. A task that has read
its path can write the end of it as well, so no second write is refused and no count of a first one is lost;
the reports of passes and of runs add up to the people who have changed. -/

namespace Downline

open MemoryStore (store)

/-- The end that a task is going to write apart does not fail. -/
def TaskPhase.EndAnswers (failing : IdSet) : TaskPhase → Prop
  | commit plan => ∀ x, plan.emptyEnd = some x → x ∉ failing
  | absorb _ last _ => last ∉ failing
  | _ => True

theorem TaskPhase.endAnswers_of_none {failing : IdSet} (h : ∀ x, x ∉ failing) (phase : TaskPhase) :
    phase.EndAnswers failing := by
  cases phase with
  | commit plan => exact fun x _ => h x
  | absorb plan last written => exact h last
  | verify | ended => trivial

/-- A moment of a pass that began with the tree `t₀`: the tasks' own accounts add up to the people who have
changed since. -/
structure Counted (failing : IdSet) (t₀ t : Tree) (placeholder : String) (crew : Crew) : Prop where
  contained : t₀.Contained t placeholder
  written : (t₀.loginChanges t).length = crew.written
  unbroken : ∀ m ∈ crew, ∃ phase, m.2 = some phase
  rightful : ∀ c phase, (c, some phase) ∈ crew → phase.Rightful t₀ placeholder
  endAnswers : ∀ c phase, (c, some phase) ∈ crew → phase.EndAnswers failing

variable {t₀ t t' : Tree} {settings : TaskSettings} {c : ChainCandidate} {phase phase' : TaskPhase}
  {failing : IdSet} {rest : Crew}

/-! ### What the tasks do -/

/-- A path is read only while its end answers. -/
theorem Work.endAnswers (hw : Work failing settings c phase t phase' t')
    (h : phase.EndAnswers failing) : phase'.EndAnswers failing := by
  cases hw with
  | refused hr =>
    rw [TaskPhase.next_error hr]
    trivial
  | verify hs hl =>
    refine TaskPhase.afterPath_cases (P := (·.EndAnswers failing)) _ (fun _ => trivial)
      fun path plan hpath hplan x hx => ?_
    obtain ⟨k, -, hplanned⟩ := Tree.planned_of_plan hpath hplan
    obtain ⟨rfl, -⟩ := (hplanned.emptyEnd x).mp hx
    exact hl
  | commit => exact TaskPhase.afterCommit_cases (P := (·.EndAnswers failing)) _ _ trivial h
  | absorb => trivial

/-- What a task counts for a call is how many people the call changes, and these for the first time. -/
theorem Work.written (hw : Work failing settings c phase t phase' t')
    (ht : t₀.Contained t settings.placeholder) (hr : phase.Rightful t₀ settings.placeholder)
    (he : phase.EndAnswers failing) :
    (t₀.loginChanges t').length + phase.written =
      (t₀.loginChanges t).length + phase'.written := by
  cases hw with
  | @refused _ r e _ hrequest hx =>
    rw [TaskPhase.next_error hrequest]
    -- Only a task before its second write has a count to lose, and that write names an end that answers.
    cases phase with
    | verify | commit => rfl
    | ended => cases hrequest
    | absorb plan last written =>
      cases hrequest
      obtain ⟨x, hx, hfails⟩ := hx
      rw [List.mem_singleton.mp hx] at hfails
      exact absurd hfails he
  | verify =>
    have hzero : (TaskPhase.afterPath settings
        (.ok (t.downwardPath? c.start c.last settings.maxDepth))).written = 0 :=
      TaskPhase.afterPath_cases (P := (·.written = 0)) _ (fun _ => rfl) fun _ _ _ _ => rfl
    rw [hzero]
    rfl
  | @commit plan t =>
    have hcount := ht.length_loginChanges_write (g := .holdsPlaceholder settings.placeholder) rfl
      fun x hx => hr.1 x (t.mem_writable.mp hx).1
    -- Whether or not the end is still to come, the task has counted this write.
    exact TaskPhase.afterCommit_cases (P := fun phase => _ = _ + phase.written) _ _ hcount
      fun _ _ => hcount
  | @absorb plan last written t =>
    have hinherits : ∀ x ∈ t.writable [last] (.notFull settings.placeholder),
        t₀.Inherits settings.placeholder x plan.credentials := by
      intro x hx
      rw [List.mem_singleton.mp (t.mem_writable.mp hx).1]
      exact hr
    rw [ht.length_loginChanges_write rfl hinherits, Nat.add_assoc]
    exact congrArg _ (Nat.add_comm _ written)

theorem Counted.of_work (hw : Work failing settings c phase t phase' t')
    (h : Counted failing t₀ t settings.placeholder ((c, some phase) ::ₘ rest)) :
    Counted failing t₀ t' settings.placeholder ((c, some phase') ::ₘ rest) := by
  obtain ⟨hrightful, hrest⟩ := Crew.forall_cons.mp h.rightful
  obtain ⟨hend, hends⟩ := Crew.forall_cons.mp h.endAnswers
  obtain ⟨hcontained, hrightful'⟩ := hw.contained h.contained hrightful
  refine ⟨hcontained, ?_, ?_, Crew.forall_cons.mpr ⟨hrightful', hrest⟩,
    Crew.forall_cons.mpr ⟨hw.endAnswers hend, hends⟩⟩
  · have hcount := hw.written h.contained hrightful hend
    have hbefore := h.written
    rw [Crew.written_cons] at hbefore ⊢
    omega
  · rw [Multiset.forall_mem_cons]
    exact ⟨⟨phase', rfl⟩, fun m hm => h.unbroken m (Multiset.mem_cons_of_mem hm)⟩

/-! ### Passes -/

variable {cfg : JobConfig} {s s' : MemoryStore}

theorem counted_of_replay {candidates : List ChainCandidate} {p p' : Pool}
    {moves : List Pool.Move} (hp : Pool.start cfg candidates = .ok p)
    (h : Pool.replay? store moves (p, s) = some (p', s')) :
    Counted s.failing s.tree s'.tree cfg.placeholderPassword p'.crew ∧ s'.failing = s.failing := by
  have hset : p.settings.placeholder = cfg.placeholderPassword := by
    rw [Pool.settings_of_start hp]
  have hverify : ∀ m ∈ p.crew, m.2 = some .verify := fun m hm => Pool.verify_of_start hp hm
  rw [← hset]
  refine Pool.crew_of_replay
    (I := fun t crew => Counted s.failing s.tree t p.settings.placeholder crew)
    (fun hw hI => hI.of_work hw) h ⟨.refl _ _, ?_, ?_, ?_, ?_⟩
  · rw [s.tree.length_loginChanges_self, Crew.written_of_verify hverify]
  · exact fun m hm => ⟨_, hverify m hm⟩
  · intro c phase hc
    cases hverify _ hc
    trivial
  · intro c phase hc
    cases hverify _ hc
    trivial

/-- What a pass that ends well, or a run, has done: its report counts the people whom it has changed. -/
structure WritesCounted (cfg : JobConfig) (s s' : MemoryStore) (nodesWritten : Nat) : Prop where
  failing : s'.failing = s.failing
  contained : s.tree.Contained s'.tree cfg.placeholderPassword
  nodesWritten : nodesWritten = (s.tree.loginChanges s'.tree).length

theorem counted_of_dispatched (hlimit : cfg.maxInFlight ≤ maxPermits)
    {candidates : List ChainCandidate} {r : Except Halt RekeyPass}
    (h : Dispatched store cfg candidates s (r, s')) :
    ∃ p, r = .ok p ∧ WritesCounted cfg s s' p.report.nodesWritten := by
  obtain ⟨p, p', moves, hp, hm, ho, rfl⟩ := h.exists_schedule hlimit
  obtain ⟨hcounted, hfailing⟩ := counted_of_replay hp hm
  refine ⟨_, Pool.outcome_of_unbroken ho hcounted.unbroken, hfailing, hcounted.contained, ?_⟩
  rw [hcounted.written]
  exact Pool.nodesWritten_report ho

namespace Rekey

/-- A pass breaks down over the depth counter of its discovery, or it ends well. -/
theorem counted_of_passed (hlimit : cfg.maxInFlight ≤ maxPermits)
    {r : Except Halt (Except StoreError RekeyPass)} (h : Passed store cfg s (r, s')) :
    (r = .error (.panic .depthOverflow) ∧ cfg.maxDepth = 4294967295) ∨
      ∃ p, r = .ok (.ok p) ∧ WritesCounted cfg s s' p.report.nodesWritten := by
  cases h with
  | undiscovered hc =>
    obtain ⟨candidates, hr, -⟩ | ⟨reason, hr, -⟩ := MemoryStore.discovery_cases hc
    · cases hr
    · cases hr
  | halted hc =>
    obtain ⟨candidates, hr, -⟩ | ⟨reason, hr, herror⟩ := MemoryStore.discovery_cases hc
    · cases hr
    · cases hr
      obtain ⟨rfl, hmax⟩ := Tree.rekeyCandidates_eq_error herror
      exact .inl ⟨rfl, hmax⟩
  | dispatched hc hd =>
    have htree := MemoryStore.tree_of_discovery hc
    have hfailing := MemoryStore.failing_of_discovery hc
    obtain ⟨p, rfl, hcounted⟩ := counted_of_dispatched hlimit hd
    refine .inr ⟨p, rfl, hcounted.failing.trans hfailing, ?_, ?_⟩
    · rw [← htree]
      exact hcounted.contained
    · rw [← htree]
      exact hcounted.nodesWritten

end Rekey

/-! ### Runs -/

theorem WritesCounted.refl (cfg : JobConfig) (s : MemoryStore) : WritesCounted cfg s s 0 where
  failing := rfl
  contained := .refl _ _
  nodesWritten := s.tree.length_loginChanges_self.symm

theorem WritesCounted.trans {s'' : MemoryStore} {m n : Nat} (h : WritesCounted cfg s s' m)
    (h' : WritesCounted cfg s' s'' n) : WritesCounted cfg s s'' (m + n) where
  failing := h'.failing.trans h.failing
  contained := h.contained.trans h'.contained
  nodesWritten := by
    -- The full people before, in between and after differ by the people changed on the way.
    have hfirst := h.contained.length_fullList
    have hthen := h'.contained.length_fullList
    have hall := (h.contained.trans h'.contained).length_fullList
    have hm := h.nodesWritten
    have hn := h'.nodesWritten
    omega

/-- A run breaks down over the depth counter of a discovery, or it ends well and counts all of its writes. -/
theorem Rekey.counted_of_repeated (hlimit : cfg.maxInFlight ≤ maxPermits) {n : Nat}
    {total : RekeyReport} {settled : List Settled} {r : Except Halt RekeyRun}
    (h : Repeated store cfg n total settled s (r, s')) :
    (r = .error (.panic .depthOverflow) ∧ cfg.maxDepth = 4294967295) ∨
      ∃ run report written, r = .ok run ∧ run.result = .ok report ∧
        report.nodesWritten = total.nodesWritten + written ∧ WritesCounted cfg s s' written := by
  -- Each pass adds its count to the total that the rest of the run starts from.
  generalize ho : (r, s') = out at h
  induction h with
  | spent =>
    cases ho
    exact .inr ⟨_, _, 0, rfl, rfl, rfl, .refl _ _⟩
  | halted hp =>
    cases ho
    obtain ⟨hr, hmax⟩ | ⟨p, hr, -⟩ := counted_of_passed hlimit hp
    · cases hr
      exact .inl ⟨rfl, hmax⟩
    · cases hr
  | failed hp =>
    cases ho
    obtain ⟨hr, -⟩ | ⟨p, hr, -⟩ := counted_of_passed hlimit hp
    · cases hr
    · cases hr
  | converged hp =>
    cases ho
    obtain ⟨hr, -⟩ | ⟨p, hr, hcounted⟩ := counted_of_passed hlimit hp
    · cases hr
    · cases hr
      exact .inr ⟨_, _, _, rfl, rfl, rfl, hcounted⟩
  | again hp _ _ ih =>
    obtain ⟨hr, -⟩ | ⟨p, hr, hcounted⟩ := counted_of_passed hlimit hp
    · cases hr
    · cases hr
      obtain hpanic | ⟨run, report, written, hrun, hreport, hsum, hrest⟩ := ih ho
      · exact .inl hpanic
      · refine .inr ⟨run, report, _, hrun, hreport, ?_, hcounted.trans hrest⟩
        rw [hsum, ← Nat.add_assoc]
        rfl

end Downline
