import Downline.Proofs.Census
import Downline.Proofs.Rekey.Counting
import Downline.Proofs.Rekey.Order

/-! The books of a re-keying run with nobody else about. The log of its calls shows whom each of them wrote;
nobody is written twice, and those written are the people who have become full, as many as the run reports. -/

namespace Downline

/-- The people whom a call has written: those whom its guard permits and who hold its login afterwards. -/
def Effect.written (e : Effect) : List PersonId :=
  match e.call with
  | .setCredentials ids login guard =>
    (e.before.writable ids guard).filter fun x => e.after.credentialsOf x == some login
  | _ => []

/-- The login that a task is about to give is not the placeholder. -/
def TaskPhase.HasRealLogin (placeholder : String) : TaskPhase → Prop
  | commit plan => plan.credentials.password ≠ placeholder
  | absorb plan _ _ => plan.credentials.password ≠ placeholder
  | _ => True

variable {placeholder : String}

/-! ### The calls -/

theorem password_ne_of_plan {path : List PathNode} {plan : RekeyPlan}
    (h : planRekey path placeholder = .ok plan) : plan.credentials.password ≠ placeholder := by
  obtain ⟨start, mid, last, -, hfits⟩ := planRekey_eq_ok_iff.mp h
  obtain ⟨login, hlogin, hreal⟩ := CredentialState.classify_full_iff.mp hfits.full
  obtain rfl : login = plan.credentials :=
    Option.some.inj (hlogin.symm.trans hfits.credentials)
  exact hreal

/-- Tasks hand real logins on, whatever path the store shows them. -/
theorem TaskSettings.asks_realLogins (settings : TaskSettings) :
    settings.Asks (Call.GivesRealLogin settings.placeholder)
      (TaskPhase.HasRealLogin settings.placeholder) where
  start := trivial
  call {phase c r} hq hr := by
    cases phase with
    | ended => cases hr
    | verify => cases hr; trivial
    | commit | absorb => cases hr; exact ⟨rfl, hq⟩
  next {phase c r} hq hr a := by
    cases phase with
    | ended => cases hr
    | verify =>
      cases hr
      rcases a with e | path
      · trivial
      · exact TaskPhase.afterPath_cases (P := TaskPhase.HasRealLogin settings.placeholder) path
          (fun _ => trivial) fun _ _ _ hplan => password_ne_of_plan hplan
    | commit plan =>
      cases hr
      rcases a with e | written
      · trivial
      · exact TaskPhase.afterCommit_cases (P := TaskPhase.HasRealLogin settings.placeholder) plan
          written trivial fun _ _ => hq
    | absorb plan last written =>
      cases hr
      cases a <;> trivial

/-! ### The log -/

namespace MemoryStore

variable {s : MemoryStore}

/-- A call makes those full whom it writes, and nobody else. -/
theorem perm_fullList_perform {c : Call} (hc : c.GivesRealLogin placeholder) :
    (Effect.written ⟨c, s.tree, (s.perform c).2.tree⟩ ++ s.tree.fullList placeholder).Perm
      ((s.perform c).2.tree.fullList placeholder) := by
  have hsame (hread : c.operation ≠ .setCredentials)
      (hnone : Effect.written ⟨c, s.tree, s.tree⟩ = []) :
      (Effect.written ⟨c, s.tree, (s.perform c).2.tree⟩ ++ s.tree.fullList placeholder).Perm
        ((s.perform c).2.tree.fullList placeholder) := by
    rw [tree_perform c hread, hnone]
    exact .refl _
  cases c with
  | person | relations | emptyIds | fullIds | upwardPaths | rekeyCandidates | downwardPath
  | credentialCensus => exact hsame nofun rfl
  | setCredentials ids login guard =>
    obtain ⟨rfl, hreal⟩ := hc
    rcases perform_setCredentials_cases (s := s) ids login guard with
      ⟨-, htree, -⟩ | ⟨e, -, hsame, -⟩
    · -- Everyone whom the guard permits holds the login now.
      have hheld : ∀ x ∈ s.tree.writable ids guard,
          (s.tree.write ids login guard).2.credentialsOf x == some login := by
        intro x hx
        obtain ⟨-, r, hr, -⟩ := Tree.person_of_writable hx
        rw [Tree.credentialsOf_of_person (Tree.person?_write_of_writable hr hx),
          PersonRecord.credentials_holding, beq_self_eq_true]
      have hall : Effect.written ⟨.setCredentials ids login guard, s.tree,
          (s.tree.write ids login guard).2⟩ = s.tree.writable ids guard :=
        List.filter_eq_self.mpr hheld
      rw [htree, hall]
      have hnodup : (s.tree.writable ids guard ++ s.tree.fullList guard.placeholder).Nodup := by
        refine (s.tree.nodup_writable ids guard).append (Tree.nodup_fullList _ _) fun x hx hf => ?_
        obtain ⟨-, r, -, hn⟩ := Tree.person_of_writable hx
        exact hn (Tree.mem_fullList.mp hf)
      refine (List.perm_ext_iff_of_nodup hnodup (Tree.nodup_fullList _ _)).mpr fun x => ?_
      rw [List.mem_append, Tree.mem_fullList, Tree.mem_fullList]
      by_cases hx : x ∈ s.tree.writable ids guard
      · exact iff_of_true (.inl hx) (Tree.full_write_of_writable hx hreal)
      · rw [Tree.stateOf_congr (Tree.person?_write_of_not_writable hx)]
        exact or_iff_right hx
    · -- Nobody whom the guard permits holds a real login.
      have hnone : Effect.written ⟨.setCredentials ids login guard, s.tree, s.tree⟩ = [] := by
        refine List.filter_eq_nil_iff.mpr fun x hx hheld => ?_
        obtain ⟨-, r, -, hn⟩ := Tree.person_of_writable hx
        exact hn (Tree.stateOf_full_iff.mpr ⟨login, eq_of_beq hheld, hreal⟩)
      rw [hsame.tree, hnone]
      exact .refl _

end MemoryStore

namespace Watched

variable {w : Watched}

/-- Memory with nobody else about, and nothing logged yet. -/
def alone (s : MemoryStore) : Watched := { memory := s, outside := fun _ => [] }

/-- Nobody else does anything. -/
def Alone (w : Watched) : Prop := ∀ n, w.outside n = []

/-- The people written by the calls so far. -/
def written (w : Watched) : List PersonId := w.log.flatMap (·.written)

theorem Alone.disturbed (h : w.Alone) : w.disturbed = w.memory := by
  rw [Watched.disturbed, h]
  rfl

/-- With nobody else about, memory with a log does what memory does. -/
theorem viewedAs_memory (P : Call → Prop) : store.ViewedAs MemoryStore.store memory P Alone where
  keeps := { enter := fun _ hw => hw, finish := fun _ hw => hw }
  enter _ _ := rfl
  finish {c t w} _ hw := by
    simp only [store, MemoryStore.store, hw.disturbed]

/-- The people written and those who were full at first are the full ones. -/
structure Accounted (t₀ : Tree) (placeholder : String) (w : Watched) : Prop where
  alone : w.Alone
  full : (w.written ++ t₀.fullList placeholder).Perm (w.memory.tree.fullList placeholder)

theorem keeps_accounted (t₀ : Tree) (placeholder : String) :
    store.Keeps (Call.GivesRealLogin placeholder) (Accounted t₀ placeholder) where
  enter _ hw := ⟨hw.alone, hw.full⟩
  finish {c t w} hc hw := by
    refine ⟨hw.alone, ?_⟩
    have hcall := MemoryStore.perm_fullList_perform (s := w.memory) hc
    simp only [store, written, List.flatMap_cons, List.append_assoc, hw.alone.disturbed]
    exact (hw.full.append_left _).trans hcall

namespace Accounted

variable {t₀ : Tree} (h : w.Accounted t₀ placeholder)
include h

theorem nodup_append : (w.written ++ t₀.fullList placeholder).Nodup :=
  h.full.nodup_iff.mpr (Tree.nodup_fullList _ _)

/-- Nobody is written twice. -/
theorem nodup : w.written.Nodup := h.nodup_append.of_append_left

theorem mem_written {x : PersonId} : x ∈ w.written ↔
    t₀.stateOf placeholder x ≠ .full ∧ w.memory.tree.stateOf placeholder x = .full := by
  have hall : x ∈ w.written ∨ t₀.stateOf placeholder x = .full ↔
      w.memory.tree.stateOf placeholder x = .full := by
    rw [← Tree.mem_fullList, ← Tree.mem_fullList, ← List.mem_append]
    exact h.full.mem_iff
  have hapart : x ∈ w.written → t₀.stateOf placeholder x ≠ .full := by
    intro hx hf
    exact (List.nodup_append'.mp h.nodup_append).2.2 hx (Tree.mem_fullList.mpr hf)
  constructor
  · exact fun hx => ⟨hapart hx, hall.mp (.inl hx)⟩
  · exact fun hx => (hall.mpr hx.2).resolve_right hx.1

end Accounted

end Watched

/-! ### The census -/

namespace Tree

/-- Handing logins down keeps the people. -/
theorem Contained.length_keys {t₀ t : Tree} (h : t₀.Contained t placeholder) :
    t.people.keys.length = t₀.people.keys.length := by
  have hperm : t.people.keys.Perm t₀.people.keys := by
    refine (List.perm_ext_iff_of_nodup Std.TreeMap.nodup_keys Std.TreeMap.nodup_keys).mpr
      fun x => ?_
    rw [Std.TreeMap.mem_keys, Std.TreeMap.mem_keys, Std.TreeMap.mem_iff_isSome_getElem?,
      Std.TreeMap.mem_iff_isSome_getElem?]
    exact Eq.congr_left (h.isSome_person? (x := x))
  exact hperm.length_eq

end Tree

/-! ### Runs -/

open MemoryStore (store)
open Rekey (Repeated untilConverged)

/-- At any moment of a run with nobody else about, the people written are those who have become full. -/
theorem Watched.accounted_of_moment {cfg : JobConfig} {n : Nat} {s : MemoryStore} {w : Watched}
    (h : Rekey.Moment Watched.store cfg n (.alone s) w) :
    w.Accounted s.tree cfg.placeholderPassword := by
  have hstart : (alone s).Accounted s.tree cfg.placeholderPassword := ⟨fun _ => rfl, .refl _⟩
  exact Rekey.keeps_of_moment (keeps_accounted _ _) trivial (TaskSettings.asks_realLogins _) h hstart

/-- Re-keying with nobody else about, whichever ids are failing and by every schedule: unless a discovery runs
over its depth counter, a run ends with a report. The same run with a log shows that nobody is written twice
and that those written are the people who were not full before and are full now; the report counts them, the
census has as many more full people, and its total is what it was. The job's own run is among these. -/
theorem rekeying_accounts_for_writes {cfg : JobConfig} (hv : cfg.validate = .ok ())
    (hlimit : cfg.maxInFlight ≤ maxPermits) (s : MemoryStore) (n : Nat) :
    Repeated store cfg (max 1 n) {} [] s (untilConverged store cfg n s) ∧
    ∀ r s', Repeated store cfg (max 1 n) {} [] s (r, s') →
      (r = .error (.panic .depthOverflow) ∧ cfg.maxDepth = 4294967295) ∨
      ∃ run report w, r = .ok run ∧ run.result = .ok report ∧
        Repeated Watched.store cfg (max 1 n) {} [] (.alone s) (r, w) ∧ w.memory = s' ∧
        w.written.Nodup ∧
        (∀ x, x ∈ w.written ↔ s.tree.stateOf cfg.placeholderPassword x ≠ .full ∧
          s'.tree.stateOf cfg.placeholderPassword x = .full) ∧
        report.nodesWritten = w.written.length ∧
        (s'.tree.fullList cfg.placeholderPassword).length =
          (s.tree.fullList cfg.placeholderPassword).length + report.nodesWritten ∧
        (s'.tree.census cfg.placeholderPassword).full =
          (s.tree.census cfg.placeholderPassword).full + .ofNat report.nodesWritten ∧
        (s'.tree.census cfg.placeholderPassword).total =
          (s.tree.census cfg.placeholderPassword).total := by
  obtain ⟨-, -, -, hn, -⟩ := JobConfig.validate_eq_ok_iff.mp hv
  refine ⟨Rekey.repeated_passes hn _ _ _ s, fun r s' hrun => ?_⟩
  obtain hpanic | ⟨run, report, written, hr, hreport, hsum, hcounted⟩ :=
    Rekey.counted_of_repeated hlimit hrun
  · exact .inl hpanic
  have hwritten : report.nodesWritten = written := hsum.trans (Nat.zero_add _)
  have hchanged : report.nodesWritten = (s.tree.loginChanges s'.tree).length :=
    hwritten.trans hcounted.nodesWritten
  -- The same schedule with a log.
  obtain ⟨w, hlogged, hmemory, -⟩ := Rekey.exists_repeated_of_view
    (Watched.viewedAs_memory fun _ => True) ⟨trivial, fun _ _ => trivial, fun _ _ _ => trivial⟩
    trivial (s := .alone s) (fun _ => rfl) hrun
  have haccounted := Watched.accounted_of_moment hlogged.moment
  have hmem : ∀ x, x ∈ w.written ↔ s.tree.stateOf cfg.placeholderPassword x ≠ .full ∧
      s'.tree.stateOf cfg.placeholderPassword x = .full := by
    intro x
    rw [← hmemory]
    exact haccounted.mem_written
  have hlength : (s.tree.loginChanges s'.tree).length = w.written.length :=
    Tree.length_loginChanges haccounted.nodup fun x =>
      (hmem x).trans hcounted.contained.loginChanged_iff.symm
  have hgrown : (s'.tree.fullList cfg.placeholderPassword).length =
      (s.tree.fullList cfg.placeholderPassword).length + report.nodesWritten := by
    rw [hchanged]
    exact hcounted.contained.length_fullList
  refine .inr ⟨run, report, w, hr, hreport, hlogged, hmemory, haccounted.nodup, hmem,
    hchanged.trans hlength, hgrown, ?_, ?_⟩
  · rw [Tree.full_census, Tree.full_census, hgrown, UInt64.ofNat_add]
  · rw [Tree.total_census, Tree.total_census, hcounted.contained.length_keys]

/-! ### A run while somebody is failing -/

namespace MemoryStore

/-- The siblings, one of whom is failing: the end of one of the two chains. -/
def shaken : MemoryStore := { tree := .siblings, failing := {⟨"c"⟩} }

theorem call_shaken : store.call (.rekeyCandidates "changeme" 10000) shaken =
    (.ok [⟨⟨"root"⟩, ⟨"c"⟩⟩, ⟨⟨"root"⟩, ⟨"e"⟩⟩], shaken.arrive.leave) := by
  have h : shaken.arrive.tree.rekeyCandidates "changeme" 10000 =
      .ok [⟨⟨"root"⟩, ⟨"c"⟩⟩, ⟨⟨"root"⟩, ⟨"e"⟩⟩] :=
    Tree.rekeyCandidates_siblings
  rw [call_eq, perform, h]

/-- The task of the failing end is refused its path; the other makes both of its writes. -/
theorem exists_pass_shaken : ∃ p s',
    Rekey.pass store { placeholderPassword := "changeme" } shaken = (.ok (.ok p), s') ∧
      p.report.failed = 1 ∧ p.report.nodesWritten = 2 ∧
      s'.tree.stateOf "changeme" ⟨"e"⟩ = .full := by
  have hreport : (dispatch store { placeholderPassword := "changeme" }
      [⟨⟨"root"⟩, ⟨"c"⟩⟩, ⟨⟨"root"⟩, ⟨"e"⟩⟩] shaken.arrive.leave).1.toOption.map
        (fun p => (p.report.failed, p.report.nodesWritten)) = some (1, 2) := by
    decide +kernel
  have hfull : (dispatch store { placeholderPassword := "changeme" }
      [⟨⟨"root"⟩, ⟨"c"⟩⟩, ⟨⟨"root"⟩, ⟨"e"⟩⟩] shaken.arrive.leave).2.tree.stateOf "changeme" ⟨"e"⟩ =
        .full := by
    decide +kernel
  have hpass := Rekey.pass_of_discovery { placeholderPassword := "changeme" } call_shaken
  generalize dispatch store { placeholderPassword := "changeme" }
    [⟨⟨"root"⟩, ⟨"c"⟩⟩, ⟨⟨"root"⟩, ⟨"e"⟩⟩] shaken.arrive.leave = out at hreport hfull hpass
  obtain ⟨_ | p, s'⟩ := out
  · cases hreport
  · obtain ⟨hfailed, hwritten⟩ := Prod.mk.inj (Option.some.inj hreport)
    exact ⟨p, s', hpass, hfailed, hwritten, hfull⟩

end MemoryStore

/-- A run of one pass over them fails over one candidate and writes two people, each of them once. -/
theorem rekeying_accounts_for_siblings : ∃ run report s', ∃ w : Watched,
    untilConverged store { placeholderPassword := "changeme" } 1 .shaken = (.ok run, s') ∧
      run.result = .ok report ∧ report.failed = 1 ∧ report.nodesWritten = 2 ∧ w.memory = s' ∧
      w.written.Nodup ∧ w.written.length = 2 ∧ ⟨"e"⟩ ∈ w.written ∧
      (s'.tree.census "changeme").full = (Tree.siblings.census "changeme").full + 2 := by
  have hv : ({ placeholderPassword := "changeme" } : JobConfig).validate = .ok () := by decide
  have hlimit : ({ placeholderPassword := "changeme" } : JobConfig).maxInFlight ≤ maxPermits := by
    decide
  obtain ⟨p, s', hpass, hfailed, hwritten, hend⟩ := MemoryStore.exists_pass_shaken
  have hone := Rekey.untilConverged_one hpass
  obtain ⟨hown, hall⟩ := rekeying_accounts_for_writes hv hlimit .shaken 1
  rw [hone] at hown
  obtain ⟨hpanic, -⟩ | ⟨run, report, w, hr, hresult, -, hmemory, hnodup, hmem, hcount, -, hfull, -⟩ :=
    hall _ _ hown
  · cases hpanic
  cases hr
  cases hresult
  have hrefused : ({} : RekeyReport).failed + p.report.failed = 1 := by rw [hfailed]
  have htwo : ({} : RekeyReport).nodesWritten + p.report.nodesWritten = 2 := by rw [hwritten]
  refine ⟨_, _, s', w, hone, rfl, hrefused, htwo, hmemory, hnodup, hcount.symm.trans htwo,
    (hmem ⟨"e"⟩).mpr ⟨by decide +kernel, hend⟩, ?_⟩
  exact hfull.trans (congrArg (fun k => _ + UInt64.ofNat k) htwo)

end Downline
