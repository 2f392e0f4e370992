import Downline.Proofs.Interference
import Downline.Proofs.Maintenance.Runs

/-! No call of a job overwrites a full person, whatever other writers do between the calls. All that the
jobs ever change is asked for in guarded writes, and the guard is checked when the write takes effect. -/

namespace Downline

/-! ### The calls that the jobs make -/

namespace Propagation

variable {cfg : JobConfig} {full : IdSet}

theorem asks_writeAll (placeholder : String) (groups : List Inheritance) (written : Nat) :
    (writeAll (.notFull placeholder) groups written).Asks (Call.GuardedBy placeholder) := by
  induction groups generalizing written with
  | nil => exact .pure _
  | cons group rest ih =>
    refine .bind (.request rfl) fun r => ?_
    cases r with
    | error e => exact .pure _
    | ok n => exact ih _

theorem asks_settle (batch : List PersonId) :
    (settle cfg full batch).Asks (Call.GuardedBy cfg.placeholderPassword) := by
  refine .bind (.request trivial) fun r => ?_
  cases r with
  | error e => exact .pure _
  | ok paths =>
    refine .bind (asks_writeAll _ _ _) fun r => ?_
    cases r with
    | error e => exact .pure _
    | ok written => exact .pure _

theorem asks_settleAll (batches : List (List PersonId)) (index : Nat) (done : List BatchEntry) :
    (settleAll cfg full index batches done).Asks (Call.GuardedBy cfg.placeholderPassword) := by
  induction batches generalizing index done with
  | nil => exact .pure _
  | cons batch rest ih =>
    refine .bind (asks_settle batch) fun r => ?_
    cases r with
    | ok outcome => exact ih _ _
    | error e =>
      cases batch with
      | nil => exact .abort _
      | cons first others => exact ih _ _

end Propagation

theorem asks_propagation (cfg : JobConfig) :
    (propagation cfg).Asks (Call.GuardedBy cfg.placeholderPassword) := by
  refine .bind (.request trivial) fun r => ?_
  cases r with
  | error e => exact .pure _
  | ok empty =>
    refine .bind (.request trivial) fun r => ?_
    cases r with
    | error e => exact .pure _
    | ok full =>
      by_cases hb : cfg.batchSize = 0
      · simp only [hb, if_true]
        exact .abort _
      · simp only [hb, if_false]
        exact .bind (Propagation.asks_settleAll _ _ _) fun entries => .pure _

/-- A re-keying task reads a path or makes a guarded write. -/
theorem TaskSettings.asks_guarded (settings : TaskSettings) :
    settings.Asks (Call.GuardedBy settings.placeholder) fun _ => True where
  start := trivial
  call {phase c r} _ hr := by
    cases phase with
    | ended => cases hr
    | verify => cases hr; trivial
    | commit | absorb => cases hr; rfl
  next _ _ _ := trivial

/-! ### Invariants of the store under the jobs -/

section Keeps

variable {σ : Type} {S : Store σ} {I : σ → Prop} {cfg : JobConfig} {s s' : σ}
  (hk : S.Keeps (Call.GuardedBy cfg.placeholderPassword) I)
include hk

theorem keeps_of_pass {candidates : List ChainCandidate} {p p' : Pool} {moves : List Pool.Move}
    (hp : Pool.start cfg candidates = .ok p)
    (hm : Pool.replay? S moves (p, s) = some (p', s')) (hs : I s) : I s' :=
  Rekey.keeps_of_schedule hk (TaskSettings.asks_guarded _) hp hm hs

theorem keeps_of_rekey_moment {n : Nat} (h : Rekey.Moment S cfg n s s') (hs : I s) : I s' :=
  Rekey.keeps_of_moment hk trivial (TaskSettings.asks_guarded _) h hs

theorem keeps_of_moment {journal : Option Journal} {stamps : CycleStamps} {site : Site σ}
    (h : Maintenance.Moment S cfg journal stamps site s') (hs : I site.store) : I s' := by
  have hpropagated : I ((propagation cfg).run S site.store).2 := hk.run (asks_propagation cfg) hs
  cases h with
  | propagated => exact hpropagated
  | rekeying hp hr hm =>
    rw [hp] at hpropagated
    exact keeps_of_rekey_moment hk hm hpropagated

end Keeps

/-- No call of propagation, of a re-keying pass over any candidates, of a re-keying run or of a cycle
changes a person who is full when the call takes effect, and none changes more than the logins of the
people that it lists. Other writers may do anything before each call. -/
theorem jobs_never_overwrite (cfg : JobConfig) (w : Watched) (hw : w.log = []) :
    (∀ e ∈ ((propagation cfg).run Watched.store w).2.log, e.Lawful cfg.placeholderPassword) ∧
      (∀ candidates p moves p' w', Pool.start cfg candidates = .ok p →
        Pool.replay? Watched.store moves (p, w) = some (p', w') →
          ∀ e ∈ w'.log, e.Lawful cfg.placeholderPassword) ∧
      (∀ n w', Rekey.Moment Watched.store cfg n w w' →
        ∀ e ∈ w'.log, e.Lawful cfg.placeholderPassword) ∧
      ∀ journal stamps files w', Maintenance.Moment Watched.store cfg journal stamps ⟨w, files⟩ w' →
        ∀ e ∈ w'.log, e.Lawful cfg.placeholderPassword := by
  have hk := Watched.keeps_lawful cfg.placeholderPassword
  have hnil : ∀ e ∈ w.log, e.Lawful cfg.placeholderPassword := by
    rw [hw]
    exact nofun
  refine ⟨hk.run (asks_propagation cfg) hnil, ?_, ?_, ?_⟩
  · intro candidates p moves p' w' hp hm
    exact keeps_of_pass hk hp hm hnil
  · intro n w' h
    exact keeps_of_rekey_moment hk h hnil
  · intro journal stamps files w' h
    exact keeps_of_moment hk h hnil

/-- Somebody else gives the empty person a login right before the job writes: the job lets it be. -/
theorem propagation_spares_newcomer : ∃ w : Watched, w.log = [] ∧ w.memory.tree = .household ∧
    ((propagation { placeholderPassword := "changeme" }).run Watched.store
      w).2.memory.tree.credentialsOf ⟨"a"⟩ = some ⟨"ann", "a-pw"⟩ ∧
    ∀ e ∈ ((propagation { placeholderPassword := "changeme" }).run Watched.store w).2.log,
      e.Lawful "changeme" := by
  refine ⟨{
    memory := { tree := .household }
    outside := fun n => if n = 3 then [.overwrite ⟨"a"⟩ (some ⟨"ann", "a-pw"⟩)] else [] },
    rfl, rfl, ?_, ?_⟩
  · decide +kernel
  · exact (jobs_never_overwrite { placeholderPassword := "changeme" } _ rfl).1

end Downline
