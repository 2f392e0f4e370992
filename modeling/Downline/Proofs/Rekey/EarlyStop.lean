import Downline.Proofs.Discovery
import Downline.Proofs.Propagation.Filling
import Downline.Proofs.Rekey.Containment
import Mathlib.Algebra.Order.BigOperators.Group.Multiset
import Mathlib.Algebra.Order.Group.Nat

/-! When a re-keying run stops before its passes are used up. Its last pass has reported no write, but a task
that fails between its two writes takes the count of the first one with it. Every change of a pass is
answered for by a task that has counted it or has failed behind it, so whoever the last pass changed stands
on the chain of a failed task. -/

namespace Downline

/-- `x` stands between the start and the end of a chain. -/
def Tree.Between (t : Tree) (c : ChainCandidate) (x : PersonId) : Prop :=
  ∃ j k, 0 < j ∧ j < k ∧ t.ancestor? j c.last = some x ∧
    t.FirstAbove (· = c.start) k c.last c.start

namespace TaskPhase

/-- The task has written `x` and still counts it, or it has failed and `x` is on its chain. -/
def AnswersFor (t : Tree) (c : ChainCandidate) (x : PersonId) : TaskPhase → Prop
  | absorb _ _ written => written ≠ 0 ∧ t.Between c x
  | ended (.ok (.rekeyed written)) => written ≠ 0
  | ended (.error _) => t.Between c x
  | _ => False

/-- If the end of a chain is to be written apart, everyone written before stands above it. -/
def SparesEnd (t : Tree) (c : ChainCandidate) : TaskPhase → Prop
  | commit plan => plan.emptyEnd.isSome → ∀ x ∈ plan.targets, t.Between c x
  | _ => True

end TaskPhase

/-- A moment of a pass that began with the tree `t₀`: everyone who has changed is answered for. -/
structure Answered (t₀ t : Tree) (crew : Crew) : Prop where
  parentOf : ∀ x, t.parentOf x = t₀.parentOf x
  sparesEnd : ∀ c phase, (c, some phase) ∈ crew → phase.SparesEnd t₀ c
  changed : ∀ x, t.person? x ≠ t₀.person? x →
    ∃ c phase, (c, some phase) ∈ crew ∧ phase.AnswersFor t₀ c x

variable {t₀ t t' : Tree} {settings : TaskSettings} {c : ChainCandidate} {phase phase' : TaskPhase}
  {failing : IdSet} {rest : Crew} {x : PersonId}

/-! ### What the tasks do -/

theorem Work.parentOf (hw : Work failing settings c phase t phase' t') (x : PersonId) :
    t'.parentOf x = t.parentOf x := by
  cases hw with
  | refused | verify => rfl
  | commit | absorb => rw [Tree.parentOf, Tree.relationsOf, Tree.relations_write]; rfl

/-- An end that holds no placeholder is no target, so the targets stand above it. -/
theorem Tree.Planned.between {placeholder : String} {k : Nat} {plan : RekeyPlan}
    (h : t.Planned placeholder c.start c.last k plan) (hp : ∀ x, t.parentOf x = t₀.parentOf x)
    (hend : plan.emptyEnd.isSome) (hx : x ∈ plan.targets) : t₀.Between c x := by
  obtain ⟨y, hy⟩ := Option.isSome_iff_exists.mp hend
  obtain ⟨-, hnot, -⟩ := (h.emptyEnd y).mp hy
  obtain ⟨j, hjk, hj, hpassword⟩ := (h.mem_targets x).mp hx
  refine ⟨j, k, Nat.pos_of_ne_zero ?_, hjk, ?_, ?_⟩
  · rintro rfl
    cases hj
    exact hnot hpassword
  · rwa [← ancestor?_congr hp]
  · exact h.first.congr (fun x => (hp x).symm) fun _ _ _ _ _ => Iff.rfl

theorem Work.sparesEnd (hw : Work failing settings c phase t phase' t')
    (hp : ∀ x, t.parentOf x = t₀.parentOf x) : phase'.SparesEnd t₀ c := by
  cases hw with
  | refused hr => rw [TaskPhase.next_error hr]; trivial
  | verify =>
    refine TaskPhase.afterPath_cases (P := (·.SparesEnd t₀ c)) _ (fun _ => trivial)
      fun path plan hpath hplan hend x hx => ?_
    obtain ⟨k, -, hplanned⟩ := Tree.planned_of_plan hpath hplan
    exact hplanned.between hp hend hx
  | commit =>
    exact TaskPhase.afterCommit_cases (P := (·.SparesEnd t₀ c)) _ _ trivial fun _ _ => trivial
  | absorb => trivial

/-- Whom a write has changed it has counted. -/
theorem Tree.fst_write_ne_zero {ids : List PersonId} {login : Credentials} {g : WriteGuard}
    (h : (t.write ids login g).2.person? x ≠ t.person? x) : (t.write ids login g).1 ≠ 0 ∧ x ∈ ids := by
  have hx : x ∈ t.writable ids g := by
    by_contra hx
    exact h (person?_write_of_not_writable hx)
  rw [fst_write]
  exact ⟨(List.length_pos_of_mem hx).ne', (t.mem_writable.mp hx).1⟩

/-- A task answers for what it answered for, and for what it has just changed. -/
theorem Work.answersFor (hw : Work failing settings c phase t phase' t')
    (hspare : phase.SparesEnd t₀ c)
    (h : phase.AnswersFor t₀ c x ∨ t'.person? x ≠ t.person? x) : phase'.AnswersFor t₀ c x := by
  cases hw with
  | @refused _ _ e _ hr =>
    rw [TaskPhase.next_error hr]
    have hbefore : phase.AnswersFor t₀ c x := h.resolve_right fun hne => hne rfl
    -- Before its second write a task has counted the first; now the count is lost.
    cases phase with
    | verify | commit => exact hbefore.elim
    | absorb => exact hbefore.2
    | ended => cases hr
  | verify => exact (h.resolve_right fun hne => hne rfl).elim
  | @commit plan =>
    obtain ⟨hpos, hx⟩ := Tree.fst_write_ne_zero (h.resolve_left id)
    refine TaskPhase.afterCommit_cases (P := (·.AnswersFor t₀ c x)) _ _ hpos fun last hend => ?_
    -- The end is still to be written, so the targets, `x` among them, all stand above it.
    exact ⟨hpos, hspare (by rw [hend]; rfl) x hx⟩
  | @absorb plan last written =>
    have hcount : written ≠ 0 ∨
        (t.write [last] plan.credentials (.notFull settings.placeholder)).1 ≠ 0 :=
      h.imp And.left fun hne => (Tree.fst_write_ne_zero hne).1
    change written + (t.write [last] plan.credentials (.notFull settings.placeholder)).1 ≠ 0
    omega

theorem Answered.of_work (hw : Work failing settings c phase t phase' t')
    (h : Answered t₀ t ((c, some phase) ::ₘ rest)) : Answered t₀ t' ((c, some phase') ::ₘ rest) where
  parentOf x := (hw.parentOf x).trans (h.parentOf x)
  sparesEnd := by
    obtain ⟨-, hrest⟩ := Crew.forall_cons.mp h.sparesEnd
    exact Crew.forall_cons.mpr ⟨hw.sparesEnd h.parentOf, hrest⟩
  changed x hx := by
    have hspare := h.sparesEnd c phase (Multiset.mem_cons_self _ _)
    have hself := Multiset.mem_cons_self (c, some phase') rest
    -- Either somebody answered for `x` before this call, or the call itself has changed `x`.
    by_cases hnew : t'.person? x = t.person? x
    · rw [hnew] at hx
      obtain ⟨d, phase₁, hd, hanswers⟩ := h.changed x hx
      rcases Multiset.mem_cons.mp hd with he | hd
      · cases he
        exact ⟨c, phase', hself, hw.answersFor hspare (.inl hanswers)⟩
      · exact ⟨d, phase₁, Multiset.mem_cons_of_mem hd, hanswers⟩
    · exact ⟨c, phase', hself, hw.answersFor hspare (.inr hnew)⟩

/-! ### Passes -/

section Hosts

variable {σ : Type} {S : Store σ} {memory : σ → MemoryStore} {may : IdSet → Prop} {I : σ → Prop}
  {cfg : JobConfig} {s s' : σ} (hS : S.Hosts memory may I)
include hS

theorem answered_of_replay {candidates : List ChainCandidate} {p p' : Pool}
    {moves : List Pool.Move} (hp : Pool.start cfg candidates = .ok p)
    (hm : Pool.replay? S moves (p, s) = some (p', s')) (hs : I s) :
    Answered (memory s).tree (memory s').tree p'.crew ∧ I s' := by
  refine Pool.crew_of_hosted_replay hS (fun _ hw h => h.of_work hw) hm hs ⟨fun _ => rfl, ?_, ?_⟩
  · intro c phase hc
    cases Pool.verify_of_start hp hc
    trivial
  · exact fun x hx => absurd rfl hx

/-- When a pass that has counted no write is over, it has changed nobody but people on the chains of failed
tasks. -/
theorem failed_of_changed {candidates : List ChainCandidate} {p p' : Pool}
    {moves : List Pool.Move} (hp : Pool.start cfg candidates = .ok p)
    (hm : Pool.replay? S moves (p, s) = some (p', s')) (ho : p'.isOver = true) (hs : I s)
    (hz : p'.report.nodesWritten = 0)
    (hx : (memory s').tree.person? x ≠ (memory s).tree.person? x) :
    ∃ d ∈ p'.settled, (∃ e, d.result = .returned (.error e)) ∧
      (memory s).tree.Between d.candidate x := by
  obtain ⟨c, phase, hc, hanswers⟩ := (answered_of_replay hS hp hm hs).1.changed x hx
  obtain ⟨result, rfl⟩ := Pool.ended_of_isOver ho hc
  have hwritten : (TaskPhase.ended result).written = 0 := by
    rw [Pool.nodesWritten_report ho, Crew.written, Multiset.sum_eq_zero_iff] at hz
    exact hz _ (Multiset.mem_map_of_mem (fun m => m.2.elim 0 TaskPhase.written) hc)
  rw [Pool.crew_of_isOver ho, Multiset.mem_map] at hc
  obtain ⟨⟨d, result'⟩, hd, he⟩ := hc
  cases result' with
  | broke => cases he
  | returned result' =>
    cases he
    -- A task that has counted a write would show in the report, and one that skipped its chain wrote nobody.
    rcases result with e | (written | reason)
    · exact ⟨_, Multiset.mem_coe.mp hd, ⟨e, rfl⟩, hanswers⟩
    · exact absurd hwritten hanswers
    · exact hanswers.elim

/-- What a pass that ends well has changed, if it has counted no write. -/
theorem changed_of_passed {pass : RekeyPass} {r : Except Halt (Except StoreError RekeyPass)}
    (hs : I s) (h : Rekey.Passed S cfg s (r, s')) (hr : r = .ok (.ok pass)) :
    I s' ∧ pass.report.failed = pass.settled.countP (·.isFailed) ∧
      (pass.report.nodesWritten = 0 →
        ∀ x, (memory s').tree.person? x ≠ (memory s).tree.person? x →
          ∃ d ∈ pass.settled, (∃ e, d.result = .returned (.error e)) ∧
            (memory s).tree.Between d.candidate x) := by
  cases h with
  | undiscovered | halted => cases hr
  | @dispatched s₁ _ candidates r hc hd =>
    obtain ⟨m, s₂, ha, -, hc', hs₂, ha'⟩ :=
      hS.call hs (.rekeyCandidates cfg.placeholderPassword cfg.maxDepth)
    obtain ⟨-, rfl⟩ := Prod.mk.inj (hc.symm.trans hc')
    have hsame := MemoryStore.tree_perform (s := m)
      (.rekeyCandidates cfg.placeholderPassword cfg.maxDepth) nofun
    have htree : (memory s₁).tree = (memory s).tree := (ha'.tree.trans hsame).trans ha.tree
    cases hd with
    | refused => cases hr
    | @ended _ p p' moves hp hm ho =>
      cases hout : p'.outcome with
      | error => rw [hout] at hr; cases hr
      | ok pass' =>
        rw [hout] at hr
        cases hr
        obtain rfl := Pool.eq_of_outcome hout
        refine ⟨(answered_of_replay hS hp hm hs₂).2, ?_, fun hz x hx => ?_⟩
        · dsimp only
          rw [Pool.failed_report, List.countP_reverse]
        · rw [← htree] at hx ⊢
          obtain ⟨d, hd, hfailed⟩ := failed_of_changed hS hp hm ho hs₂ hz hx
          exact ⟨d, List.mem_reverse.mpr hd, hfailed⟩

theorem inv_of_onward {i : Nat} (h : Rekey.Onward S cfg i s s') (hs : I s) : I s' := by
  induction h with
  | start => exact hs
  | pass hp _ _ ih => exact ih (changed_of_passed hS hs hp rfl).1

end Hosts

open Rekey (Onward Passed Repeated untilConverged)

/-- Re-keying while outages come and go, by every schedule: a run that ends well before its passes are used
up has ended with a pass that reports no write. If no task of that pass failed, it changed nobody; and whom
it changed all the same stands on the chain of a failed task, between its start and its end. The job's own
run is among these. -/
theorem early_stop_changes_failed_chains (cfg : JobConfig) {w : Watched} (hw : w.OutagesOnly)
    (n : Nat) :
    (cfg.maxInFlight ≠ 0 →
      Repeated Watched.store cfg (max 1 n) {} [] w (untilConverged Watched.store cfg n w)) ∧
      ∀ run report w', Repeated Watched.store cfg (max 1 n) {} [] w (.ok run, w') →
        run.result = .ok report → report.passes < max 1 n →
          ∃ i w₁ p, report.passes = i + 1 ∧ Onward Watched.store cfg i w w₁ ∧
            Passed Watched.store cfg w₁ (.ok (.ok p), w') ∧ p.report.nodesWritten = 0 ∧
            (p.report.failed = 0 →
              ∀ x, w'.memory.tree.person? x = w₁.memory.tree.person? x) ∧
            ∀ x, w'.memory.tree.person? x ≠ w₁.memory.tree.person? x →
              ∃ d ∈ p.settled, (∃ e, d.result = .returned (.error e)) ∧
                w₁.memory.tree.Between d.candidate x := by
  refine ⟨fun hn => Rekey.repeated_passes hn _ _ _ w, fun run report w' h hr hlt => ?_⟩
  rcases h.last_pass hr with ⟨-, hall⟩ | ⟨i, w₁, p, -, hon, hp, hz, hcount⟩
  · exact absurd hall (by rw [Nat.zero_add]; exact Nat.ne_of_lt hlt)
  · obtain ⟨-, hfailed, hchanged⟩ :=
      changed_of_passed Watched.hosts (inv_of_onward Watched.hosts hon hw) hp rfl
    refine ⟨i, w₁, p, hcount.trans (Nat.zero_add _), hon, hp, hz, fun hnone x => ?_, hchanged hz⟩
    by_contra hx
    obtain ⟨d, hd, ⟨e, he⟩, -⟩ := hchanged hz x hx
    rw [hnone, eq_comm, List.countP_eq_zero] at hfailed
    exact hfailed d hd (by rw [Settled.isFailed, he])

/-! ### An outage between the two writes of a task -/

theorem Tree.rekeyCandidates_neighbours :
    neighbours.rekeyCandidates "changeme" 10000 = .ok [⟨⟨"r2"⟩, ⟨"b"⟩⟩] := by
  have hstarts : neighbours.people.keys.filter
      (fun id => neighbours.stateOf "changeme" id == .full) = [⟨"r1"⟩, ⟨"r2"⟩] := by
    decide +kernel
  have hr1 : neighbours.candidatesBelow "changeme" 10000 ⟨"r1"⟩ = .ok [] := by
    have hchildren : neighbours.childrenOf ⟨"r1"⟩ = [⟨"a"⟩] := by decide +kernel
    have ha : neighbours.visit "changeme" 10000 ⟨"a"⟩ 1 = .pass := by
      have hp : neighbours.passwordOf ⟨"a"⟩ = none := by decide +kernel
      simp [visit, hp]
    rw [candidatesBelow, hchildren, List.map_singleton, chainEnds_of_pass ha, chainEnds_nil]
    rfl
  have hr2 : neighbours.candidatesBelow "changeme" 10000 ⟨"r2"⟩ = .ok [⟨⟨"r2"⟩, ⟨"b"⟩⟩] := by
    have hchildren : neighbours.childrenOf ⟨"r2"⟩ = [⟨"mid"⟩] := by decide +kernel
    have hmid : neighbours.visit "changeme" 10000 ⟨"mid"⟩ 1 = .goesOn [⟨"b"⟩] :=
      visit_eq_goesOn_iff.mpr (by decide +kernel)
    have hb : neighbours.visit "changeme" 10000 ⟨"b"⟩ (1 + 1) = .ends :=
      visit_eq_ends_iff.mpr (by decide +kernel)
    rw [candidatesBelow, hchildren, List.map_singleton, chainEnds_of_goesOn hmid (by decide),
      List.map_singleton, List.singleton_append, chainEnds_of_ends hb, chainEnds_nil]
    rfl
  simp only [rekeyCandidates, hstarts, List.mapM_cons, List.mapM_nil, hr1, hr2]
  simp only [bind, Except.bind, pure, Except.pure, List.flatten_cons, List.flatten_nil,
    List.nil_append, List.append_nil, List.mergeSort_singleton]

namespace Watched

/-- The neighbours, with an outage that begins before the second write of a re-keying pass. -/
def cutShort : Watched where
  memory := { tree := .neighbours }
  outside := fun n => if n = 3 then [.failOn ⟨"b"⟩] else []

/-- The same after discovery. -/
def discovered : Watched :=
  { cutShort with
    memory := cutShort.memory.arrive.leave
    log := [⟨.rekeyCandidates "changeme" 10000, .neighbours, .neighbours⟩] }

theorem outagesOnly_cutShort : cutShort.OutagesOnly := by
  intro n e he
  dsimp only [cutShort] at he
  split at he
  · rw [List.mem_singleton.mp he]
    trivial
  · cases he

theorem call_cutShort : store.call (.rekeyCandidates "changeme" 10000) cutShort =
    (.ok [⟨⟨"r2"⟩, ⟨"b"⟩⟩], discovered) := by
  have h : cutShort.memory.arrive.tree.rekeyCandidates "changeme" 10000 =
      .ok [⟨⟨"r2"⟩, ⟨"b"⟩⟩] :=
    Tree.rekeyCandidates_neighbours
  rw [call_undisturbed rfl, MemoryStore.perform, h]
  rfl

theorem exists_pass_cutShort : ∃ p w',
    Rekey.pass store { placeholderPassword := "changeme" } cutShort = (.ok (.ok p), w') ∧
      p.report = { passes := 1, candidates := 1, failed := 1, peakInFlight := 1 } ∧
      w'.memory.tree.credentialsOf ⟨"mid"⟩ = some ⟨"user-r2", "pw-r2"⟩ := by
  have hreport : (dispatch store { placeholderPassword := "changeme" } [⟨⟨"r2"⟩, ⟨"b"⟩⟩]
      discovered).1.toOption.map (·.report) =
        some { passes := 1, candidates := 1, failed := 1, peakInFlight := 1 } := by
    decide +kernel
  have hlogin : (dispatch store { placeholderPassword := "changeme" } [⟨⟨"r2"⟩, ⟨"b"⟩⟩]
      discovered).2.memory.tree.credentialsOf ⟨"mid"⟩ = some ⟨"user-r2", "pw-r2"⟩ := by
    decide +kernel
  have hpass := Rekey.pass_of_discovery { placeholderPassword := "changeme" } call_cutShort
  generalize dispatch store { placeholderPassword := "changeme" } [⟨⟨"r2"⟩, ⟨"b"⟩⟩] discovered = out
    at hreport hlogin hpass
  obtain ⟨_ | p, w'⟩ := out
  · cases hreport
  · exact ⟨p, w', hpass, Option.some.inj hreport, hlogin⟩

end Watched

/-- A run stops behind such a pass, and the person that the pass has changed stands above the end of the
chain of its failed task. -/
theorem early_stop_changes_neighbour : Watched.cutShort.OutagesOnly ∧ ∃ run report w' p,
    untilConverged Watched.store { placeholderPassword := "changeme" } 5 .cutShort =
        (.ok run, w') ∧
      run.result = .ok report ∧ report.passes < max 1 5 ∧
      Passed Watched.store { placeholderPassword := "changeme" } .cutShort (.ok (.ok p), w') ∧
      ∃ d ∈ p.settled, (∃ e, d.result = .returned (.error e)) ∧
        Tree.neighbours.Between d.candidate ⟨"mid"⟩ := by
  obtain ⟨p, w', hp, hreport, hlogin⟩ := Watched.exists_pass_cutShort
  have hrun := Rekey.untilConverged_of_pass hp (by rw [hreport]) 5
  obtain ⟨hown, hall⟩ := early_stop_changes_failed_chains { placeholderPassword := "changeme" }
    Watched.outagesOnly_cutShort 5
  have hown := hown (by decide)
  rw [hrun] at hown
  have hlt : 1 < max 1 5 := by decide
  obtain ⟨i, w₁, p₁, hi, hon, hlast, -, -, hchanged⟩ := hall _ _ _ hown rfl hlt
  obtain rfl : 0 = i := Nat.succ.inj hi
  cases hon
  refine ⟨Watched.outagesOnly_cutShort, _, _, w', p₁, hrun, rfl, hlt, hlast, hchanged ⟨"mid"⟩ ?_⟩
  intro he
  rw [Tree.credentialsOf_congr he] at hlogin
  revert hlogin
  decide +kernel

/-- The run stops behind a pass that has written somebody, with four passes left. -/
theorem early_stop_has_written : Watched.cutShort.OutagesOnly ∧ ∃ p w' run report,
    Rekey.pass Watched.store { placeholderPassword := "changeme" } .cutShort = (.ok (.ok p), w') ∧
      untilConverged Watched.store { placeholderPassword := "changeme" } 5 .cutShort =
        (.ok run, w') ∧
      run.result = .ok report ∧ report.passes = 1 ∧
      w'.memory.tree.credentialsOf ⟨"mid"⟩ ≠
        Watched.cutShort.memory.tree.credentialsOf ⟨"mid"⟩ := by
  obtain ⟨p, w', hp, hreport, hlogin⟩ := Watched.exists_pass_cutShort
  refine ⟨Watched.outagesOnly_cutShort, p, w', _, _, hp,
    Rekey.untilConverged_of_pass hp (by rw [hreport]) 5, rfl, rfl, ?_⟩
  rw [hlogin]
  decide +kernel

end Downline
