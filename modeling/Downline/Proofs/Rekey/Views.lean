import Downline.Proofs.Rekey.Runs

/-! One store seen through another. If a store does to a view of its state what another store does to its own
state, every re-keying run of the other store is the view of a run. -/

namespace Downline

variable {σ τ : Type}

/-- While `I` holds, calls that meet `P` are answered by `S` as by `T`, and the view keeps up with `T`. -/
structure Store.ViewedAs (S : Store σ) (T : Store τ) (view : σ → τ) (P : Call → Prop)
    (I : σ → Prop) : Prop where
  keeps : S.Keeps P I
  enter : ∀ {c s}, P c → I s → T.enter c (view s) = ((S.enter c s).1, view (S.enter c s).2)
  finish : ∀ {c t s}, P c → I s →
    T.finish c t (view s) = ((S.finish c t s).1, view (S.finish c t s).2)

variable {S : Store σ} {T : Store τ} {view : σ → τ} {P : Call → Prop} {I : σ → Prop}
  (h : S.ViewedAs T view P I)
include h

theorem Store.ViewedAs.call {c : Call} {s : σ} (hc : P c) (hs : I s) :
    T.call c (view s) = ((S.call c s).1, view (S.call c s).2) := by
  have hkept := h.keeps.enter hc hs
  unfold Store.call
  rw [h.enter hc hs]
  cases he : S.enter c s with
  | mk answer s' =>
    rw [he] at hkept
    cases answer with
    | error f => rfl
    | ok ticket => exact h.finish hc hkept

namespace Pool

variable {p p' : Pool} {s : σ} {t' : τ}

section Step

variable (hasks : p.settings.Asks P fun _ => True) (hs : I s)
include hasks hs

theorem enter?_view (i : Nat) :
    p.enter? T i (view s) = (p.enter? S i s).map fun state => (state.1, view state.2) := by
  unfold enter?
  cases p.tasks[i]? with
  | none => rfl
  | some task =>
    obtain ⟨c, status⟩ := task
    cases status with
    | calling | leaving | releasing | finished => rfl
    | ready phase =>
      cases hr : phase.request? p.settings c with
      | none => simp [hr]
      | some r =>
        have hview := h.enter (hasks.call trivial hr) hs
        cases he : S.enter r.call s with
        | mk answer s' =>
          rw [he] at hview
          rcases answer with (e | halt) | ticket <;> simp [hr, hview, he]

theorem answer?_view (i : Nat) :
    p.answer? T i (view s) = (p.answer? S i s).map fun state => (state.1, view state.2) := by
  unfold answer?
  cases p.tasks[i]? with
  | none => rfl
  | some task =>
    obtain ⟨c, status⟩ := task
    cases status with
    | ready | leaving | releasing | finished => rfl
    | calling phase ticket =>
      cases hr : phase.request? p.settings c with
      | none => simp [hr]
      | some r =>
        have hview := h.finish (t := ticket) (hasks.call trivial hr) hs
        cases hf : S.finish r.call ticket s with
        | mk answer s' =>
          rw [hf] at hview
          rcases answer with (e | halt) | a <;> simp [hr, hview, hf]

/-- A move makes the same of a pass over the view. -/
theorem step?_view (m : Move) :
    step? T m (p, view s) = (step? S m (p, s)).map fun state => (state.1, view state.2) := by
  cases m with
  | enter i => exact enter?_view h hasks hs i
  | answer i => exact answer?_view h hasks hs i
  | acquire | leave | release =>
    simp only [step?]
    split <;> rfl
  | launch =>
    simp only [step?]
    split
    next => rfl
    next => split <;> rfl
  | join =>
    simp only [step?]
    split
    next => split <;> rfl
    next => rfl

end Step

/-- A schedule of a pass over the view is one of a pass over the store. -/
theorem exists_replay_of_view {moves : List Move} (hasks : p.settings.Asks P fun _ => True)
    (hs : I s) (hm : replay? T moves (p, view s) = some (p', t')) :
    ∃ s', replay? S moves (p, s) = some (p', s') ∧ view s' = t' ∧ I s' := by
  induction moves generalizing p s with
  | nil =>
    cases hm
    exact ⟨s, rfl, rfl, hs⟩
  | cons m rest ih =>
    obtain ⟨mid, hstep, hrest⟩ := Option.bind_eq_some_iff.mp hm
    rw [step?_view h hasks hs] at hstep
    obtain ⟨⟨p₁, s₁⟩, hmove, rfl⟩ := Option.map_eq_some_iff.mp hstep
    have hmoved := moved_of_step? hmove
    have hset : p₁.settings = p.settings := settings_of_moved hmoved
    have hanywhere : ∀ t ∈ (p.tasks : Multiset Task), t.status.InPhase fun _ => True := by
      intro t _
      obtain ⟨c, status⟩ := t
      cases status <;> trivial
    have hs₁ : I s₁ := (keeps_of_moved h.keeps hasks hmoved hanywhere hs).2
    obtain ⟨s', hreplay, hview, hs'⟩ := ih (by rw [hset]; exact hasks) hs₁ hrest
    exact ⟨s', by rw [replay?, hmove, Option.bind_some, hreplay], hview, hs'⟩

end Pool

variable {cfg : JobConfig} {s : σ} {t' : τ}
  (hasks : TaskSettings.Asks ⟨cfg.placeholderPassword, cfg.maxDepth⟩ P fun _ => True)
include hasks

theorem exists_dispatched_of_view {candidates : List ChainCandidate} {r : Except Halt RekeyPass}
    (hs : I s) (hd : Dispatched T cfg candidates (view s) (r, t')) :
    ∃ s', Dispatched S cfg candidates s (r, s') ∧ view s' = t' ∧ I s' := by
  cases hd with
  | refused hp => exact ⟨s, .refused hp, rfl, hs⟩
  | ended hp hm ho =>
    have hstart := (Pool.start_eq_ok_iff.mp hp).2
    obtain ⟨s', hreplay, hview, hs'⟩ :=
      Pool.exists_replay_of_view h (by rw [hstart]; exact hasks) hs hm
    exact ⟨s', .ended hp hreplay ho, hview, hs'⟩

namespace Rekey

variable (hdiscovery : P (.rekeyCandidates cfg.placeholderPassword cfg.maxDepth))
include hdiscovery

theorem exists_passed_of_view {r : Except Halt (Except StoreError RekeyPass)} (hs : I s)
    (hp : Passed T cfg (view s) (r, t')) :
    ∃ s', Passed S cfg s (r, s') ∧ view s' = t' ∧ I s' := by
  have hcall := h.call hdiscovery hs
  have hkept := h.keeps.call hdiscovery hs
  cases hres : S.call (.rekeyCandidates cfg.placeholderPassword cfg.maxDepth) s with
  | mk answer s₁ =>
    rw [hres] at hcall hkept
    cases hp with
    | undiscovered hc =>
      obtain ⟨rfl, rfl⟩ := Prod.mk.inj (hcall.symm.trans hc)
      exact ⟨s₁, .undiscovered hres, rfl, hkept⟩
    | halted hc =>
      obtain ⟨rfl, rfl⟩ := Prod.mk.inj (hcall.symm.trans hc)
      exact ⟨s₁, .halted hres, rfl, hkept⟩
    | dispatched hc hd =>
      obtain ⟨rfl, rfl⟩ := Prod.mk.inj (hcall.symm.trans hc)
      obtain ⟨s', hd', hview, hs'⟩ := exists_dispatched_of_view h hasks hkept hd
      exact ⟨s', .dispatched hres hd', hview, hs'⟩

/-- A run over the view is the view of a run that comes to the same. -/
theorem exists_repeated_of_view {n : Nat} {total : RekeyReport} {settled : List Settled}
    {r : Except Halt RekeyRun} (hs : I s)
    (hrun : Repeated T cfg n total settled (view s) (r, t')) :
    ∃ s', Repeated S cfg n total settled s (r, s') ∧ view s' = t' ∧ I s' := by
  generalize hstart : view s = t at hrun
  generalize ho : (r, t') = out at hrun
  induction hrun generalizing s with
  | spent =>
    cases ho
    exact ⟨s, .spent, hstart, hs⟩
  | halted hp =>
    cases ho
    subst hstart
    obtain ⟨s', hp', hview, hs'⟩ := exists_passed_of_view h hasks hdiscovery hs hp
    exact ⟨s', .halted hp', hview, hs'⟩
  | failed hp =>
    cases ho
    subst hstart
    obtain ⟨s', hp', hview, hs'⟩ := exists_passed_of_view h hasks hdiscovery hs hp
    exact ⟨s', .failed hp', hview, hs'⟩
  | converged hp hz =>
    cases ho
    subst hstart
    obtain ⟨s', hp', hview, hs'⟩ := exists_passed_of_view h hasks hdiscovery hs hp
    exact ⟨s', .converged hp' hz, hview, hs'⟩
  | again hp hz _ ih =>
    subst hstart
    obtain ⟨s₁, hp', hview, hs₁⟩ := exists_passed_of_view h hasks hdiscovery hs hp
    obtain ⟨s', hrest, hview', hs'⟩ := ih hs₁ hview ho
    exact ⟨s', .again hp' hz hrest, hview', hs'⟩

end Rekey

end Downline
