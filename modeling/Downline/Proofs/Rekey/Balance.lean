import Downline.Proofs.Rekey.Crew
import Downline.Proofs.Rekey.EarlyStop

/-! What a re-keying report counts, whatever the store answers and in whatever order tasks end. Each candidate
of a pass waits, is at work, or has been settled, and once it is settled it counts as re-keyed, as skipped or as
failed, never as two of these; a run adds up its passes. -/

namespace Downline

namespace Pool

variable {σ : Type} {S : Store σ} {p p' : Pool} {s s' : σ}

/-- The candidates of a pass: those that wait, those whose task has been started, and those settled. -/
def members (p : Pool) : Multiset ChainCandidate :=
  p.waiting + p.tasks.map (·.candidate) + p.settled.map (·.candidate)

theorem members_setStatus (i : Nat) (status : TaskStatus) :
    (p.setStatus i status).members = p.members := by
  have hsame : (p.setStatus i status).tasks.map (·.candidate) = p.tasks.map (·.candidate) := by
    refine List.ext_getElem? fun j => ?_
    simp only [setStatus, List.getElem?_map, List.getElem?_modify]
    cases p.tasks[j]? with
    | none => rfl
    | some t =>
      by_cases hij : i = j
      · simp [hij]
      · simp [hij]
  rw [members, members, hsame]
  rfl

/-- A move takes no candidate away and adds none. -/
theorem members_of_moved {state state' : Pool × σ} (h : Moved S state state') :
    state'.1.members = state.1.members := by
  cases h with
  | acquire => rfl
  | @launch p s c rest hh hw =>
    simp only [members, hw, List.map_append, List.map_cons, List.map_nil, coe_append_singleton,
      ← Multiset.cons_coe, Multiset.add_cons, Multiset.cons_add]
  | turn ht hturn => exact members_setStatus _ _
  | leave ht => exact members_setStatus _ _
  | release ht => exact members_setStatus _ _
  | @join p s i c result hh ht =>
    obtain ⟨others, htasks, -, herase⟩ := exists_other_tasks ht
    simp only [members, ← Multiset.map_coe, htasks, herase, ← Multiset.cons_coe,
      Multiset.map_cons, Multiset.add_cons, Multiset.cons_add]

theorem members_of_replay {cfg : JobConfig} {candidates : List ChainCandidate}
    {moves : List Move} (hp : start cfg candidates = .ok p)
    (h : replay? S moves (p, s) = some (p', s')) : p'.members = (candidates : Multiset _) := by
  refine invariant_of_replay (I := fun state => state.1.members = (candidates : Multiset _))
    (fun hm hI => (members_of_moved hm).trans hI) h ?_
  obtain ⟨-, rfl⟩ := start_eq_ok_iff.mp hp
  simp [members]

/-- When nobody waits or works any more, the settled candidates are all there are. -/
theorem settled_perm_of_replay {cfg : JobConfig} {candidates : List ChainCandidate}
    {moves : List Move} (hp : start cfg candidates = .ok p)
    (h : replay? S moves (p, s) = some (p', s')) (ho : p'.isOver = true) :
    (p'.settled.map (·.candidate)).Perm candidates := by
  have hmembers := members_of_replay hp h
  simp only [isOver, Bool.and_eq_true, List.isEmpty_iff] at ho
  obtain ⟨⟨hwaiting, -⟩, htasks⟩ := ho
  rwa [members, hwaiting, htasks, List.map_nil, Multiset.coe_nil, Multiset.zero_add,
    Multiset.zero_add, Multiset.coe_eq_coe] at hmembers

end Pool

/-! ### The report of a pass -/

/-- Each candidate that was counted counts under one of the three headings. -/
def RekeyReport.Balanced (r : RekeyReport) : Prop := r.candidates = r.rekeyed + r.skipped + r.failed

theorem Settled.length_eq_countP (l : List Settled) :
    l.length = l.countP (·.isRekeyed) + l.countP (·.isSkipped) + l.countP (·.isFailed) := by
  induction l with
  | nil => rfl
  | cons d l ih =>
    have hone : (if d.isRekeyed then 1 else 0) + (if d.isSkipped then 1 else 0) +
        (if d.isFailed then 1 else 0) = 1 := by
      obtain ⟨c, result⟩ := d
      rcases result with ((e | (written | reason)) | reason) <;> rfl
    simp only [List.length_cons, List.countP_cons]
    omega

/-- What a pass over these candidates reports: one settled task a candidate, counted by its result. -/
structure RekeyPass.Accounts (pass : RekeyPass) (candidates : List ChainCandidate) : Prop where
  perm : (pass.settled.map (·.candidate)).Perm candidates
  candidates : pass.report.candidates = candidates.length
  rekeyed : pass.report.rekeyed = pass.settled.countP (·.isRekeyed)
  skipped : pass.report.skipped = pass.settled.countP (·.isSkipped)
  failed : pass.report.failed = pass.settled.countP (·.isFailed)
  nodesWritten : pass.report.nodesWritten = (pass.settled.map (·.written)).sum

theorem RekeyPass.Accounts.balanced {pass : RekeyPass} {candidates : List ChainCandidate}
    (h : pass.Accounts candidates) : pass.report.Balanced := by
  have hlength : pass.settled.length = candidates.length := by
    rw [← h.perm.length_eq, List.length_map]
  rw [RekeyReport.Balanced, h.candidates, h.rekeyed, h.skipped, h.failed, ← hlength]
  exact Settled.length_eq_countP _

section Passes

variable {σ : Type} {S : Store σ} {cfg : JobConfig} {s s' : σ}

theorem accounts_of_dispatched {candidates : List ChainCandidate} {pass : RekeyPass}
    (h : Dispatched S cfg candidates s (.ok pass, s')) : pass.Accounts candidates := by
  generalize hr : (Except.ok pass : Except Halt RekeyPass) = r at h
  cases h with
  | refused => cases hr
  | @ended _ p p' moves hp hm ho =>
    obtain rfl := Pool.eq_of_outcome hr.symm
    have hcount : p'.candidates = candidates.length :=
      (Pool.candidates_of_replay hm).trans (Pool.candidates_of_start hp)
    refine ⟨?_, ?_, ?_, ?_, ?_, ?_⟩
    · rw [List.map_reverse]
      exact (List.reverse_perm _).trans (Pool.settled_perm_of_replay hp hm ho)
    · rw [Pool.report_eq]
      exact hcount
    · rw [Pool.report_eq, List.countP_reverse]
    · rw [Pool.report_eq, List.countP_reverse]
    · rw [Pool.report_eq, List.countP_reverse]
    · rw [Pool.report_eq, List.map_reverse, List.sum_reverse]

/-- A pass that ends well has dispatched the candidates that it discovered. -/
theorem Rekey.Passed.exists_dispatched {pass : RekeyPass}
    (h : Rekey.Passed S cfg s (.ok (.ok pass), s')) :
    ∃ candidates s₁, Dispatched S cfg candidates s₁ (.ok pass, s') := by
  generalize hr : (Except.ok (Except.ok pass) : Except Halt (Except StoreError RekeyPass)) = r at h
  cases h with
  | undiscovered | halted => cases hr
  | @dispatched s₁ _ candidates r hc hd =>
    cases r with
    | error => cases hr
    | ok pass' =>
      cases hr
      exact ⟨candidates, s₁, hd⟩

/-! ### The report of a run -/

/-- The sums over some passes, and the highest of their peaks. -/
def RekeyReport.sum (ps : List RekeyPass) : RekeyReport where
  passes := ps.length
  candidates := (ps.map (·.report.candidates)).sum
  rekeyed := (ps.map (·.report.rekeyed)).sum
  skipped := (ps.map (·.report.skipped)).sum
  failed := (ps.map (·.report.failed)).sum
  nodesWritten := (ps.map (·.report.nodesWritten)).sum
  peakInFlight := (ps.map (·.report.peakInFlight)).foldr max 0

/-- Two reports taken together. -/
def RekeyReport.plus (a b : RekeyReport) : RekeyReport :=
  { a.absorb b with passes := a.passes + b.passes }

theorem RekeyReport.plus_sum_cons (total : RekeyReport) (p : RekeyPass) (ps : List RekeyPass) :
    total.plus (sum (p :: ps)) =
      RekeyReport.plus { total.absorb p.report with passes := total.passes + 1 } (sum ps) := by
  simp only [plus, absorb, sum, List.map_cons, List.sum_cons, List.foldr_cons, List.length_cons,
    Nat.add_assoc, Nat.max_assoc, Nat.add_comm 1]

theorem RekeyReport.empty_plus (r : RekeyReport) : plus {} r = r := by
  simp only [plus, absorb, Nat.zero_add, Nat.zero_max]

theorem RekeyReport.balanced_sum {ps : List RekeyPass} (h : ∀ p ∈ ps, p.report.Balanced) :
    (sum ps).Balanced := by
  induction ps with
  | nil => rfl
  | cons p ps ih =>
    obtain ⟨hp, hps⟩ := List.forall_mem_cons.mp h
    have hsum := ih hps
    simp only [Balanced, sum, List.map_cons, List.sum_cons] at hp hsum ⊢
    omega

/-- Passes one after another, each by some schedule. -/
inductive Rekey.Series (S : Store σ) (cfg : JobConfig) : List RekeyPass → σ → σ → Prop where
  | nil {s : σ} : Series S cfg [] s s
  | cons {s s₁ s' : σ} {p : RekeyPass} {ps : List RekeyPass}
      (hp : Rekey.Passed S cfg s (.ok (.ok p), s₁)) (hps : Series S cfg ps s₁ s') :
      Series S cfg (p :: ps) s s'

theorem Rekey.Series.forall_dispatched {P : RekeyPass → Prop} {ps : List RekeyPass}
    (h : Rekey.Series S cfg ps s s')
    (hP : ∀ candidates s₁ p s₂, Dispatched S cfg candidates s₁ (.ok p, s₂) → P p) :
    ∀ p ∈ ps, P p := by
  induction h with
  | nil => exact List.forall_mem_nil _
  | cons hp _ ih =>
    obtain ⟨candidates, s₁, hd⟩ := hp.exists_dispatched
    exact List.forall_mem_cons.mpr ⟨hP _ _ _ _ hd, ih⟩

theorem Rekey.Series.balanced {ps : List RekeyPass} (h : Rekey.Series S cfg ps s s') :
    ∀ p ∈ ps, p.report.Balanced :=
  h.forall_dispatched fun _ _ _ _ hd => (accounts_of_dispatched hd).balanced

/-- A run that ends well has made some passes, and adds them to what it was given. -/
theorem Rekey.Repeated.exists_series {n : Nat} {total report : RekeyReport}
    {settled : List Settled} {run : RekeyRun}
    (h : Rekey.Repeated S cfg n total settled s (.ok run, s')) (hr : run.result = .ok report) :
    ∃ ps, Rekey.Series S cfg ps s s' ∧ ps.length ≤ n ∧ (n ≠ 0 → ps ≠ []) ∧
      report = total.plus (.sum ps) ∧ run.settled = settled ++ ps.flatMap (·.settled) := by
  -- By induction on the passes: the ones behind the first make a run that starts from a larger total.
  generalize ho : (Except.ok run, s') = out at h
  induction h with
  | spent =>
    cases ho
    cases hr
    refine ⟨[], .nil, Nat.le_refl 0, fun h => absurd rfl h, ?_, (List.append_nil _).symm⟩
    simp only [RekeyReport.plus, RekeyReport.absorb, RekeyReport.sum, List.map_nil, List.sum_nil,
      List.length_nil, List.foldr_nil, Nat.add_zero, Nat.max_zero]
  | halted => cases ho
  | failed =>
    cases ho
    cases hr
  | @converged n total settled s s' p hp hz =>
    cases ho
    cases hr
    refine ⟨[p], .cons hp .nil, Nat.succ_pos n, fun _ => List.cons_ne_nil _ _, ?_, ?_⟩
    · simp only [RekeyReport.plus, RekeyReport.absorb, RekeyReport.sum, List.map_cons,
        List.map_nil, List.sum_cons, List.sum_nil, List.length_cons, List.length_nil,
        List.foldr_cons, List.foldr_nil, Nat.add_zero, Nat.max_zero]
    · rw [List.flatMap_cons, List.flatMap_nil, List.append_nil]
  | @again n total settled s s₁ p out hp hz _ ih =>
    obtain ⟨ps, hseries, hlength, -, hreport, hsettled⟩ := ih ho
    refine ⟨p :: ps, .cons hp hseries, Nat.succ_le_succ hlength,
      fun _ => List.cons_ne_nil _ _, ?_, ?_⟩
    · rw [hreport, RekeyReport.plus_sum_cons]
    · rw [hsettled, List.flatMap_cons, List.append_assoc]

end Passes

open Rekey (Repeated Series untilConverged)

/-- No candidate is lost or counted twice, by any schedule over any store. At each moment of a pass each
candidate waits or has one task, at work or settled; a pass that ends well has settled one task a candidate and
counts them by their results, which make up all candidates; a run that ends well reports the sums over its
passes, of which there are at least one and at most as many as it may make, with the highest peak, and its sums
make up all candidates too. The job's own passes and runs are among these. -/
theorem reports_balance {σ : Type} (S : Store σ) {cfg : JobConfig} (hn : cfg.maxInFlight ≠ 0)
    (s : σ) :
    (∀ candidates, Dispatched S cfg candidates s (dispatch S cfg candidates s) ∧
      (∀ p moves p' s', Pool.start cfg candidates = .ok p →
        Pool.replay? S moves (p, s) = some (p', s') → p'.members = (candidates : Multiset _)) ∧
      ∀ pass s', Dispatched S cfg candidates s (.ok pass, s') →
        pass.Accounts candidates ∧ pass.report.Balanced) ∧
    ∀ n, Repeated S cfg (max 1 n) {} [] s (untilConverged S cfg n s) ∧
      ∀ run report s', Repeated S cfg (max 1 n) {} [] s (.ok run, s') → run.result = .ok report →
        ∃ ps, Series S cfg ps s s' ∧ report = .sum ps ∧ report.Balanced ∧
          1 ≤ report.passes ∧ report.passes ≤ max 1 n ∧
          run.settled = ps.flatMap (·.settled) := by
  constructor
  · intro candidates
    refine ⟨dispatched_dispatch hn candidates s,
      fun _ _ _ _ hp hm => Pool.members_of_replay hp hm, fun pass s' hd => ?_⟩
    have haccounts := accounts_of_dispatched hd
    exact ⟨haccounts, haccounts.balanced⟩
  · intro n
    refine ⟨Rekey.repeated_passes hn _ _ _ s, fun run report s' hrun hr => ?_⟩
    obtain ⟨ps, hseries, hlength, hne, hreport, hsettled⟩ := hrun.exists_series hr
    rw [RekeyReport.empty_plus] at hreport
    have hone : ps ≠ [] := hne (by omega)
    refine ⟨ps, hseries, hreport, ?_, ?_, ?_, hsettled⟩
    · rw [hreport]
      exact RekeyReport.balanced_sum hseries.balanced
    · rw [hreport]
      exact List.length_pos_iff.mpr hone
    · rw [hreport]
      exact hlength

/-- Of three tasks one writes its chain, one finds it written and one fails, and the report of the pass counts
each of them once; a run that stops behind its first pass reports that pass. -/
theorem household_report_balances :
    (∃ pass s', dispatch MemoryStore.store { placeholderPassword := "changeme" }
        [⟨⟨"root"⟩, ⟨"c"⟩⟩, ⟨⟨"root"⟩, ⟨"c"⟩⟩, ⟨⟨"root"⟩, ⟨"a"⟩⟩]
        { tree := .household, failing := {⟨"a"⟩} } = (.ok pass, s') ∧
      pass.report.rekeyed = 1 ∧ pass.report.skipped = 1 ∧ pass.report.failed = 1 ∧
      (pass.settled.map (·.candidate)).Perm
        [⟨⟨"root"⟩, ⟨"c"⟩⟩, ⟨⟨"root"⟩, ⟨"c"⟩⟩, ⟨⟨"root"⟩, ⟨"a"⟩⟩] ∧ pass.report.Balanced) ∧
    ∃ run report w' ps,
      untilConverged Watched.store { placeholderPassword := "changeme" } 5 .cutShort =
        (.ok run, w') ∧ run.result = .ok report ∧ report.failed = 1 ∧ report.passes = 1 ∧
      Series Watched.store { placeholderPassword := "changeme" } ps .cutShort w' ∧
      report = .sum ps ∧ report.Balanced := by
  have hn : ({ placeholderPassword := "changeme" } : JobConfig).maxInFlight ≠ 0 := by decide
  constructor
  · have hcounts : (dispatch MemoryStore.store { placeholderPassword := "changeme" }
        [⟨⟨"root"⟩, ⟨"c"⟩⟩, ⟨⟨"root"⟩, ⟨"c"⟩⟩, ⟨⟨"root"⟩, ⟨"a"⟩⟩]
        { tree := .household, failing := {⟨"a"⟩} }).1.toOption.map (fun pass =>
          (pass.report.rekeyed, pass.report.skipped, pass.report.failed)) = some (1, 1, 1) := by
      decide +kernel
    obtain ⟨hown, -, hall⟩ := (reports_balance MemoryStore.store hn
      { tree := .household, failing := {⟨"a"⟩} }).1
        [⟨⟨"root"⟩, ⟨"c"⟩⟩, ⟨⟨"root"⟩, ⟨"c"⟩⟩, ⟨⟨"root"⟩, ⟨"a"⟩⟩]
    generalize hd : dispatch MemoryStore.store { placeholderPassword := "changeme" }
      [⟨⟨"root"⟩, ⟨"c"⟩⟩, ⟨⟨"root"⟩, ⟨"c"⟩⟩, ⟨⟨"root"⟩, ⟨"a"⟩⟩]
      { tree := .household, failing := {⟨"a"⟩} } = out at hown hcounts
    obtain ⟨_ | pass, s'⟩ := out
    · cases hcounts
    · obtain ⟨haccounts, hbalanced⟩ := hall pass s' hown
      have hcounts := Option.some.inj hcounts
      simp only [Prod.mk.injEq] at hcounts
      obtain ⟨hrekeyed, hskipped, hfailed⟩ := hcounts
      exact ⟨pass, s', rfl, hrekeyed, hskipped, hfailed, haccounts.perm, hbalanced⟩
  · obtain ⟨p, w', hp, hreport, -⟩ := Watched.exists_pass_cutShort
    have hrun := Rekey.untilConverged_of_pass hp (by rw [hreport]) 5
    obtain ⟨hown, hall⟩ := (reports_balance Watched.store hn .cutShort).2 5
    rw [hrun] at hown
    obtain ⟨ps, hseries, hsum, hbalanced, -⟩ := hall _ _ _ hown rfl
    refine ⟨_, _, w', ps, hrun, rfl, ?_, rfl, hseries, hsum, hbalanced⟩
    rw [hreport]
    rfl

end Downline
