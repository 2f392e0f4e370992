import Downline.Proofs.Rekey.Crew
import Downline.Proofs.Rekey.Plan
import Downline.Proofs.Rekey.Runs

/-! Re-keying hands logins down and does nothing else: however its tasks interleave, on whatever paths
they work and whichever calls fail, whoever changes takes over the login of the full person who was its
nearest when re-keying began. -/

namespace Downline

open MemoryStore (store)

variable {t₀ t t' : Tree} {placeholder : String}

/-- What a task is about to write is what the people it writes to inherit in `t₀`. -/
def TaskPhase.Rightful (t₀ : Tree) (placeholder : String) : TaskPhase → Prop
  | commit plan => (∀ x ∈ plan.targets, t₀.Inherits placeholder x plan.credentials) ∧
      ∀ x, plan.emptyEnd = some x → t₀.Inherits placeholder x plan.credentials
  | absorb plan last _ => t₀.Inherits placeholder last plan.credentials
  | _ => True

theorem TaskPhase.next_error {settings : TaskSettings} {c : ChainCandidate} {phase : TaskPhase}
    {r : Request TaskPhase} (hr : phase.request? settings c = some r) (e : StoreError) :
    r.next (.error e) = .ended (.error e) := by
  cases phase with
  | ended => cases hr
  | verify | commit | absorb => cases hr; rfl

/-- The tree stays contained while tasks carry out what is rightful, and what they go on to is rightful
too. -/
theorem Work.contained {failing : IdSet} {settings : TaskSettings} {c : ChainCandidate}
    {phase phase' : TaskPhase} (h : Work failing settings c phase t phase' t')
    (ht : t₀.Contained t settings.placeholder) (hp : phase.Rightful t₀ settings.placeholder) :
    t₀.Contained t' settings.placeholder ∧ phase'.Rightful t₀ settings.placeholder := by
  cases h with
  | refused hr hx =>
    rw [TaskPhase.next_error hr]
    exact ⟨ht, trivial⟩
  | verify =>
    refine ⟨ht, TaskPhase.afterPath_cases (P := (·.Rightful t₀ settings.placeholder)) _
      (fun _ => trivial) fun path plan hpath hplan => ?_⟩
    obtain ⟨k, -, hplanned⟩ := Tree.planned_of_plan hpath hplan
    -- What is inherited in the tree as it is now was inherited from the beginning.
    exact ⟨fun x hx => ht.inherits_before (hplanned.inherits_of_target hx),
      fun x hx => ht.inherits_before (hplanned.inherits_of_emptyEnd hx)⟩
  | @commit plan t =>
    obtain ⟨htargets, hend⟩ := hp
    exact ⟨ht.write rfl fun x hx => htargets x (t.mem_writable.mp hx).1,
      TaskPhase.afterCommit_cases (P := (·.Rightful t₀ settings.placeholder)) _ _ trivial hend⟩
  | @absorb plan last written t =>
    refine ⟨ht.write rfl fun x hx => ?_, trivial⟩
    rw [List.mem_singleton.mp (t.mem_writable.mp hx).1]
    exact hp

/-- Under every schedule of a pass the tree stays contained. -/
theorem contained_of_replay {cfg : JobConfig} {candidates : List ChainCandidate} {p p' : Pool}
    {s s' : MemoryStore} {moves : List Pool.Move} (hp : Pool.start cfg candidates = .ok p)
    (h : Pool.replay? store moves (p, s) = some (p', s')) :
    s.tree.Contained s'.tree cfg.placeholderPassword := by
  have hset : p.settings.placeholder = cfg.placeholderPassword := by
    rw [Pool.settings_of_start hp]
  rw [← hset]
  refine (Pool.crew_of_replay (I := fun t crew => s.tree.Contained t p.settings.placeholder ∧
    ∀ c phase, (c, some phase) ∈ crew → phase.Rightful s.tree p.settings.placeholder)
    ?_ h ⟨.refl _ _, ?_⟩).1.1
  · intro c phase phase' rest t t' hw hh
    obtain ⟨ht, hcrew⟩ := hh
    obtain ⟨hself, hrest⟩ := Crew.forall_cons.mp hcrew
    obtain ⟨ht', hself'⟩ := hw.contained ht hself
    exact ⟨ht', Crew.forall_cons.mpr ⟨hself', hrest⟩⟩
  · intro c phase hc
    cases Pool.verify_of_start hp hc
    trivial

namespace Rekey

variable {cfg : JobConfig} {s s' : MemoryStore}

theorem contained_of_passed {r : Except Halt (Except StoreError RekeyPass)}
    (h : Passed store cfg s (r, s')) : s.tree.Contained s'.tree cfg.placeholderPassword := by
  cases h with
  | undiscovered hc | halted hc =>
    rw [MemoryStore.tree_of_discovery hc]
    exact .refl _ _
  | dispatched hc hd =>
    rw [← MemoryStore.tree_of_discovery hc]
    cases hd with
    | refused hp => exact .refl _ _
    | ended hp hm ho => exact contained_of_replay hp hm

theorem contained_of_moment {n : Nat} (h : Moment store cfg n s s') :
    s.tree.Contained s'.tree cfg.placeholderPassword := by
  induction h with
  | before => exact .refl _ _
  | discovered =>
    rw [MemoryStore.tree_call (.rekeyCandidates cfg.placeholderPassword cfg.maxDepth) nofun]
    exact .refl _ _
  | during hc hp hm =>
    rw [← MemoryStore.tree_of_discovery hc]
    exact contained_of_replay hp hm
  | later hp hz _ ih => exact (contained_of_passed hp).trans ih

end Rekey

/-- Re-keying spreads no login but to those who inherit it: in the middle of a pass over any candidates,
and at any moment of a run of any number of passes, everyone is as at the start or has taken over the
login of the nearest full person above. -/
theorem rekey_spreads_inherited_logins (cfg : JobConfig) (s : MemoryStore) :
    (∀ candidates p moves p' s', Pool.start cfg candidates = .ok p →
      Pool.replay? store moves (p, s) = some (p', s') →
        s.tree.Contained s'.tree cfg.placeholderPassword) ∧
      ∀ n s', Rekey.Moment store cfg n s s' →
        s.tree.Contained s'.tree cfg.placeholderPassword :=
  ⟨fun _ _ _ _ _ hp h => contained_of_replay hp h, fun _ _ h => Rekey.contained_of_moment h⟩

theorem rekey_spreads_within_household : ∃ p p' s',
    Pool.start { placeholderPassword := "changeme" } [⟨⟨"root"⟩, ⟨"c"⟩⟩] = .ok p ∧
      Pool.replay? store [.acquire, .launch, .enter 0, .answer 0, .enter 0, .answer 0]
        (p, { tree := .household }) = some (p', s') ∧
      s'.tree.credentialsOf ⟨"c"⟩ = some ⟨"boss", "real"⟩ ∧
      Tree.household.Contained s'.tree "changeme" := by
  obtain ⟨p, hp⟩ : ∃ p, Pool.start { placeholderPassword := "changeme" } [⟨⟨"root"⟩, ⟨"c"⟩⟩] =
    .ok p := ⟨_, rfl⟩
  have hrun : (Pool.replay? store [.acquire, .launch, .enter 0, .answer 0, .enter 0, .answer 0]
      (p, { tree := .household })).map (fun state => state.2.tree.credentialsOf ⟨"c"⟩) =
        some (some ⟨"boss", "real"⟩) := by
    cases hp
    decide +kernel
  obtain ⟨⟨p', s'⟩, hmoves, hlogin⟩ := Option.map_eq_some_iff.mp hrun
  exact ⟨p, p', s', hp, hmoves, hlogin,
    (rekey_spreads_inherited_logins _ _).1 _ _ _ _ _ hp hmoves⟩

end Downline
