import Downline.Proofs.Entity
import Downline.Proofs.Program
import Downline.Proofs.Propagation.Runs
import Mathlib.Data.List.Forall2

/-! What propagation asks of a store, whatever the store answers and whichever calls it refuses. Nothing is known
here of the paths that a batch is answered with: they may overlap, name the same terminator with different logins,
or pass people twice. -/

namespace Downline

/-! ### The calls of one program after another -/

namespace Prog

variable {σ α β : Type} {S : Store σ} {p : Prog α} {f : α → Prog β} {s s' : σ} {c : Call}

theorem exchanges_bind_ok {a : α} (h : p.run S s = (.ok a, s')) :
    (p >>= f).exchanges S s = p.exchanges S s ++ (f a).exchanges S s' := by
  induction p generalizing s with
  | done b =>
    cases h
    rfl
  | abort reason => cases h
  | ask c next ih =>
    have hb : (ask c next >>= f) = ask c fun r => next r >>= f := rfl
    rw [run] at h
    split at h
    next a' s₁ hc => simp only [hb, exchanges, hc, ih _ h, List.cons_append]
    next e s₁ hc => simp only [hb, exchanges, hc, ih _ h, List.cons_append]
    next reason s₁ hc => cases h

theorem run_bind_error {h : Halt} (hp : p.run S s = (.error h, s')) :
    (p >>= f).run S s = (.error h, s') := by
  induction p generalizing s with
  | done b => cases hp
  | abort reason =>
    cases hp
    rfl
  | ask c next ih =>
    have hb : (ask c next >>= f) = ask c fun r => next r >>= f := rfl
    rw [hb, run]
    rw [run] at hp
    split at hp
    next a' s₁ hc => exact ih _ hp
    next e s₁ hc => exact ih _ hp
    next reason s₁ hc => cases hp; rfl

theorem exchanges_bind_error {h : Halt} (hp : p.run S s = (.error h, s')) :
    (p >>= f).exchanges S s = p.exchanges S s := by
  induction p generalizing s with
  | done b => cases hp
  | abort reason => rfl
  | ask c next ih =>
    have hb : (ask c next >>= f) = ask c fun r => next r >>= f := rfl
    rw [run] at hp
    split at hp
    next a' s₁ hc => simp only [hb, exchanges, hc, ih _ hp]
    next e s₁ hc => simp only [hb, exchanges, hc, ih _ hp]
    next reason s₁ hc => simp only [hb, exchanges, hc]

theorem run_eq {r : Except Halt α} (h : (p.run S s).1 = r) : p.run S s = (r, (p.run S s).2) :=
  Prod.ext h rfl

@[simp]
theorem exchanges_pure (a : α) (s : σ) : (pure a : Prog α).exchanges S s = [] := rfl

theorem exchanges_request_ok {f : Except StoreError c.Answer → Prog β} {a : c.Answer}
    (h : S.call c s = (.ok a, s')) :
    (request c >>= f).exchanges S s = ⟨c, .ok a⟩ :: (f (.ok a)).exchanges S s' := by
  have hb : (request c >>= f) = ask c f := rfl
  rw [hb, exchanges, h]

theorem exchanges_request_error {f : Except StoreError c.Answer → Prog β} {e : StoreError}
    (h : S.call c s = (.error (.error e), s')) :
    (request c >>= f).exchanges S s =
      ⟨c, .error (.error e)⟩ :: (f (.error e)).exchanges S s' := by
  have hb : (request c >>= f) = ask c f := rfl
  rw [hb, exchanges, h]

theorem exchanges_request_halt {f : Except StoreError c.Answer → Prog β} {reason : Halt}
    (h : S.call c s = (.error (.halt reason), s')) :
    (request c >>= f).exchanges S s = [⟨c, .error (.halt reason)⟩] := by
  have hb : (request c >>= f) = ask c f := rfl
  rw [hb, exchanges, h]

theorem run_request_halt {f : Except StoreError c.Answer → Prog β} {reason : Halt}
    (h : S.call c s = (.error (.halt reason), s')) :
    (request c >>= f).run S s = (.error reason, s') := by
  have hb : (request c >>= f) = ask c f := rfl
  rw [hb, run, h]

end Prog

/-- How a program ends that passes on the fault of a call. -/
def Fault.ends {α : Type} : Fault → Except Halt (Except StoreError α)
  | .error e => .ok (.error e)
  | .halt h => .error h

/-- A program that passes on the first fault of its calls has ended with this one, or with a good result if there
was none. -/
def EndsWith {α : Type} (good : α → Prop) (fault : Option Fault)
    (result : Except Halt (Except StoreError α)) : Prop :=
  match fault with
  | none => ∃ a, good a ∧ result = .ok (.ok a)
  | some f => result = f.ends

namespace Propagation

/-! ### What a log may hold -/

/-- A terminator's paths call for this login to these people: everyone on one of them who is not in `full`, in
ascending order and each once, and the login of the first of them. -/
structure CallsFor (full : IdSet) (paths : List UpwardPath) (terminator : PersonId) (ids : List PersonId)
    (login : Credentials) : Prop where
  ascending : ids.Pairwise (compare · · = .lt)
  mem_ids : ∀ x, x ∈ ids ↔ ∃ path ∈ paths, path.terminator = terminator ∧ x ∈ path.walked ∧ x ∉ full
  first_login : (paths.find? (·.terminator = terminator)).map (·.credentials) = some login

/-- The write that a terminator's paths call for. -/
def IsWriteFor (full : IdSet) (placeholder : String) (paths : List UpwardPath) (terminator : PersonId)
    (call : Call) : Prop :=
  ∃ ids login, call = .setCredentials ids login (.notFull placeholder) ∧
    CallsFor full paths terminator ids login

/-- The writes that these paths call for: one for each terminator, in ascending order of terminators. -/
def AreWritesFor (full : IdSet) (placeholder : String) (paths : List UpwardPath) (calls : List Call) : Prop :=
  ∃ terminators : List PersonId, terminators.Pairwise (compare · · = .lt) ∧
    (∀ x, x ∈ terminators ↔ ∃ path ∈ paths, path.terminator = x) ∧
    List.Forall₂ (IsWriteFor full placeholder paths) terminators calls

/-- A log of calls that are made one after another up to the first that is not answered, and the fault of that
one. -/
inductive UpToFault : List Call → List Exchange → Option Fault → Prop where
  | done : UpToFault [] [] none
  | answered {c : Call} {calls : List Call} {log : List Exchange} {fault : Option Fault} (a : c.Answer)
      (rest : UpToFault calls log fault) : UpToFault (c :: calls) (⟨c, .ok a⟩ :: log) fault
  | faulted {c : Call} {calls : List Call} (f : Fault) :
      UpToFault (c :: calls) [⟨c, .error f⟩] (some f)

/-- The log of one batch, and the fault that it ends with. -/
inductive BatchLog (cfg : JobConfig) (full : IdSet) (batch : List PersonId) :
    List Exchange → Option Fault → Prop where
  | refused (f : Fault) :
      BatchLog cfg full batch [⟨.upwardPaths batch full cfg.maxDepth, .error f⟩] (some f)
  | answered {paths : List UpwardPath} {calls : List Call} {log : List Exchange} {fault : Option Fault}
      (writes : AreWritesFor full cfg.placeholderPassword paths calls) (made : UpToFault calls log fault) :
      BatchLog cfg full batch (⟨.upwardPaths batch full cfg.maxDepth, .ok paths⟩ :: log) fault

/-- The log of batches that are handled one after another, and the fault that each of them ends with. A batch that
fails is followed by the next one all the same; only a halt cuts the others off. -/
inductive BatchLogs (cfg : JobConfig) (full : IdSet) :
    List (List PersonId) → List Exchange → List (Option Fault) → Prop where
  | done : BatchLogs cfg full [] [] []
  | next {batch : List PersonId} {batches : List (List PersonId)} {log logs : List Exchange}
      {fault : Option Fault} {faults : List (Option Fault)} (here : BatchLog cfg full batch log fault)
      (goes : ∀ h, fault ≠ some (.halt h)) (rest : BatchLogs cfg full batches logs faults) :
      BatchLogs cfg full (batch :: batches) (log ++ logs) (fault :: faults)
  | cutOff {batch : List PersonId} {batches : List (List PersonId)} {log : List Exchange} {h : Halt}
      (here : BatchLog cfg full batch log (some (.halt h))) :
      BatchLogs cfg full (batch :: batches) log [some (.halt h)]

/-- The log of a whole run, and how the run ends. -/
inductive RunLog (cfg : JobConfig) : List Exchange → Except Halt (Except StoreError PropagationRun) → Prop where
  | unlisted (f : Fault) : RunLog cfg [⟨.emptyIds, .error f⟩] f.ends
  | unterminated (empty : List PersonId) (f : Fault) :
      RunLog cfg [⟨.emptyIds, .ok empty⟩, ⟨.fullIds cfg.placeholderPassword, .error f⟩] f.ends
  | batched {empty : List PersonId} {full : IdSet} {logs : List Exchange} {faults : List (Option Fault)}
      {r : PropagationRun} (batches : BatchLogs cfg full (batchesOf cfg.batchSize empty) logs faults)
      (goes : ∀ h, some (.halt h) ∉ faults)
      (failed : r.batches.map (·.isFailed) = faults.map (·.isSome)) :
      RunLog cfg
        (⟨.emptyIds, .ok empty⟩ :: ⟨.fullIds cfg.placeholderPassword, .ok full⟩ :: logs) (.ok (.ok r))
  | cutOff {empty : List PersonId} {full : IdSet} {logs : List Exchange} {faults : List (Option Fault)}
      {h : Halt} (batches : BatchLogs cfg full (batchesOf cfg.batchSize empty) logs faults)
      (last : faults.getLast? = some (some (.halt h))) :
      RunLog cfg
        (⟨.emptyIds, .ok empty⟩ :: ⟨.fullIds cfg.placeholderPassword, .ok full⟩ :: logs) (.error h)

/-! ### The writes of a batch -/

section Writes

variable {full : IdSet} {paths : List UpwardPath} {terminator : PersonId} {g : Inheritance}

theorem callsFor_of_inheritance (hg : (inheritances full paths)[terminator]? = some g) :
    CallsFor full paths terminator g.targets.toList g.credentials where
  ascending := Std.TreeSet.ordered_toList
  mem_ids x := by
    rw [Std.TreeSet.mem_toList]
    constructor
    · intro hx
      exact (isTarget_inheritances full paths terminator x).mp ⟨g, hg, hx⟩
    · intro h
      obtain ⟨g', hg', hx⟩ := (isTarget_inheritances full paths terminator x).mpr h
      rw [hg, Option.some.injEq] at hg'
      rwa [hg']
  first_login := by
    rw [← passedOn_inheritances full, passedOn, hg, Option.map_some]

theorem mem_inheritances_keys (full : IdSet) (paths : List UpwardPath) (terminator : PersonId) :
    terminator ∈ (inheritances full paths).keys ↔ ∃ path ∈ paths, path.terminator = terminator := by
  have hpass := passedOn_inheritances full paths terminator
  have hsome : (passedOn (inheritances full paths) terminator).isSome ↔
      terminator ∈ (inheritances full paths).keys := by
    rw [passedOn, Option.isSome_map, Std.TreeMap.mem_keys, Std.TreeMap.mem_iff_isSome_getElem?]
  rw [← hsome, hpass, Option.isSome_map, List.find?_isSome]
  simp only [decide_eq_true_eq]

theorem areWritesFor_inheritances (full : IdSet) (placeholder : String) (paths : List UpwardPath) :
    AreWritesFor full placeholder paths (((inheritances full paths).toList.map (·.2)).map fun g =>
      .setCredentials g.targets.toList g.credentials (.notFull placeholder)) := by
  refine ⟨(inheritances full paths).keys, Std.TreeMap.ordered_keys, mem_inheritances_keys full paths, ?_⟩
  rw [← Std.TreeMap.map_fst_toList_eq_keys, List.map_map, List.forall₂_map_left_iff,
    List.forall₂_map_right_iff, List.forall₂_same]
  intro p hp
  exact ⟨_, _, rfl, callsFor_of_inheritance (Std.TreeMap.mem_toList_iff_getElem?_eq_some.mp hp)⟩

end Writes

/-! ### Logs of runs -/

section Logs

variable {σ : Type} (S : Store σ) (cfg : JobConfig)

theorem exists_upToFault (guard : WriteGuard) (groups : List Inheritance) (n : Nat) (s : σ) :
    ∃ fault, UpToFault (groups.map fun g => .setCredentials g.targets.toList g.credentials guard)
      ((writeAll guard groups n).exchanges S s) fault ∧
      EndsWith (fun _ => True) fault ((writeAll guard groups n).run S s).1 := by
  induction groups generalizing n s with
  | nil => exact ⟨none, .done, n, trivial, rfl⟩
  | cons g rest ih =>
    rw [writeAll]
    obtain ⟨answer, s', hcall⟩ :
        ∃ answer s', S.call (.setCredentials g.targets.toList g.credentials guard) s = (answer, s') :=
      ⟨_, _, rfl⟩
    rcases answer with (e | h) | m
    · rw [Prog.exchanges_request_error hcall, Prog.run_request_error (congrArg Prod.fst hcall)]
      exact ⟨some (.error e), .faulted _, rfl⟩
    · rw [Prog.exchanges_request_halt hcall, Prog.run_request_halt hcall]
      exact ⟨some (.halt h), .faulted _, rfl⟩
    · obtain ⟨fault, hlog, hends⟩ := ih (n + m) s'
      rw [Prog.exchanges_request_ok hcall, Prog.run_request_ok (congrArg Prod.fst hcall), hcall]
      exact ⟨fault, .answered m hlog, hends⟩

theorem exists_batchLog (full : IdSet) (batch : List PersonId) (s : σ) :
    ∃ fault, BatchLog cfg full batch ((settle cfg full batch).exchanges S s) fault ∧
      EndsWith (fun outcome => ∃ written unreachable, outcome = .settled written unreachable) fault
        ((settle cfg full batch).run S s).1 := by
  unfold settle
  obtain ⟨answer, s', hcall⟩ :
      ∃ answer s', S.call (.upwardPaths batch full cfg.maxDepth) s = (answer, s') := ⟨_, _, rfl⟩
  rcases answer with (e | h) | paths
  · rw [Prog.exchanges_request_error hcall, Prog.run_request_error (congrArg Prod.fst hcall)]
    exact ⟨some (.error e), .refused _, rfl⟩
  · rw [Prog.exchanges_request_halt hcall, Prog.run_request_halt hcall]
    exact ⟨some (.halt h), .refused _, rfl⟩
  · rw [Prog.exchanges_request_ok hcall, Prog.run_request_ok (congrArg Prod.fst hcall), hcall]
    have hwrites := areWritesFor_inheritances full cfg.placeholderPassword paths
    obtain ⟨fault, hlog, hends⟩ := exists_upToFault S (.notFull cfg.placeholderPassword)
      ((inheritances full paths).toList.map (·.2)) 0 s'
    -- Behind the writes nothing more is asked, and their fault is passed on.
    refine ⟨fault, ?_⟩
    rcases fault with - | (e | h)
    · obtain ⟨m, -, hm⟩ := hends
      have hrun := Prog.run_eq hm
      rw [Prog.exchanges_bind_ok hrun, Prog.run_bind_ok hrun, Prog.exchanges_pure, List.append_nil]
      exact ⟨.answered hwrites hlog, _, ⟨_, _, rfl⟩, rfl⟩
    · have hrun := Prog.run_eq hends
      rw [Prog.exchanges_bind_ok hrun, Prog.run_bind_ok hrun, Prog.exchanges_pure, List.append_nil]
      exact ⟨.answered hwrites hlog, rfl⟩
    · have hrun := Prog.run_eq hends
      rw [Prog.exchanges_bind_error hrun, Prog.run_bind_error hrun]
      exact ⟨.answered hwrites hlog, rfl⟩

/-- A run over batches behind those of `done` has ended well, with an entry for each, or with a halt of the last
batch that it came to. -/
def BatchesEnd (done : List BatchEntry) (faults : List (Option Fault))
    (result : Except Halt (List BatchEntry)) : Prop :=
  (∃ entries, result = .ok entries ∧ (∀ h, some (.halt h) ∉ faults) ∧
      entries.map (·.isFailed) = done.reverse.map (·.isFailed) ++ faults.map (·.isSome)) ∨
    ∃ h, result = .error h ∧ faults.getLast? = some (some (.halt h))

theorem BatchesEnd.cons {b : BatchEntry} {done : List BatchEntry} {fault : Option Fault}
    {faults : List (Option Fault)} {result : Except Halt (List BatchEntry)}
    (h : BatchesEnd (b :: done) faults result) (hb : b.isFailed = fault.isSome)
    (hgoes : ∀ h, fault ≠ some (.halt h)) : BatchesEnd done (fault :: faults) result := by
  rcases h with ⟨entries, hr, hrest, hf⟩ | ⟨reason, hr, hlast⟩
  · have hall : ∀ h, some (.halt h) ∉ fault :: faults := fun h hmem =>
      (List.mem_cons.mp hmem).elim (fun he => hgoes h he.symm) (hrest h)
    refine .inl ⟨entries, hr, hall, ?_⟩
    rw [hf, List.reverse_cons, List.map_append, List.append_assoc, List.map_singleton, hb]
    rfl
  · refine .inr ⟨reason, hr, ?_⟩
    rw [List.getLast?_cons, hlast]
    rfl

/-- A run over batches without an empty one is cut off by a halt alone, never by a batch that fails. -/
theorem exists_batchLogs (full : IdSet) {batches : List (List PersonId)} (hne : ∀ b ∈ batches, b ≠ [])
    (index : Nat) (done : List BatchEntry) (s : σ) :
    ∃ faults, BatchLogs cfg full batches ((settleAll cfg full index batches done).exchanges S s) faults ∧
      BatchesEnd done faults ((settleAll cfg full index batches done).run S s).1 := by
  induction batches generalizing index done s with
  | nil =>
    refine ⟨[], .done, .inl ⟨done.reverse, rfl, fun _ => List.not_mem_nil, ?_⟩⟩
    rw [List.map_nil, List.append_nil]
  | cons batch rest ih =>
    have hne' : ∀ b ∈ rest, b ≠ [] := fun b hb => hne b (List.mem_cons_of_mem _ hb)
    obtain ⟨fault, hlog, hends⟩ := exists_batchLog S cfg full batch s
    rw [settleAll]
    -- Whether the batch fails or not, it gets an entry and the others follow.
    rcases fault with - | (e | h)
    · obtain ⟨_, ⟨written, unreachable, rfl⟩, hm⟩ := hends
      have hrun := Prog.run_eq hm
      rw [Prog.exchanges_bind_ok hrun, Prog.run_bind_ok hrun]
      obtain ⟨faults, hlogs, hend⟩ := ih hne' (index + 1)
        (⟨index, batch.length, .settled written unreachable⟩ :: done) ((settle cfg full batch).run S s).2
      have hgoes (h : Halt) : none ≠ some (Fault.halt h) := (Option.some_ne_none _).symm
      exact ⟨none :: faults, .next hlog hgoes hlogs, hend.cons rfl hgoes⟩
    · have hrun := Prog.run_eq hends
      rw [Prog.exchanges_bind_ok hrun, Prog.run_bind_ok hrun]
      obtain ⟨first, others, rfl⟩ := List.exists_cons_of_ne_nil (hne batch List.mem_cons_self)
      obtain ⟨faults, hlogs, hend⟩ := ih hne' (index + 1)
        (⟨index, (first :: others).length, .failed first e⟩ :: done)
        ((settle cfg full (first :: others)).run S s).2
      have hgoes (h : Halt) : some (Fault.error e) ≠ some (.halt h) := by simp
      exact ⟨some (.error e) :: faults, .next hlog hgoes hlogs, hend.cons rfl hgoes⟩
    · have hrun := Prog.run_eq hends
      rw [Prog.exchanges_bind_error hrun, Prog.run_bind_error hrun]
      exact ⟨_, .cutOff hlog, .inr ⟨h, rfl, rfl⟩⟩

end Logs

end Propagation

open Propagation

/-- Whatever a store answers, malformed paths included, and whichever calls it refuses: each batch in its turn
asks for the paths of its members, and where it is answered it writes once for each terminator of a path, in
ascending order and up to the first write that fails. A write goes, with a guard against full people, to everyone
on that terminator's paths who was not full at the start, in ascending order, with the login of the first of
these paths. A batch that fails is marked as failed and followed by the next one. -/
theorem propagation_asks_store_for_writes {σ : Type} {cfg : JobConfig} (hv : cfg.validate = .ok ())
    (S : Store σ) (s : σ) :
    RunLog cfg ((propagation cfg).exchanges S s) ((propagation cfg).run S s).1 := by
  have hsize : cfg.batchSize ≠ 0 := (JobConfig.validate_eq_ok_iff.mp hv).2.1
  unfold propagation
  obtain ⟨answer, s₁, hempty⟩ : ∃ answer s₁, S.call .emptyIds s = (answer, s₁) := ⟨_, _, rfl⟩
  rcases answer with (e | h) | empty
  · rw [Prog.exchanges_request_error hempty, Prog.run_request_error (congrArg Prod.fst hempty)]
    exact .unlisted (.error e)
  · rw [Prog.exchanges_request_halt hempty, Prog.run_request_halt hempty]
    exact .unlisted (.halt h)
  rw [Prog.exchanges_request_ok hempty, Prog.run_request_ok (congrArg Prod.fst hempty), hempty]
  obtain ⟨answer, s₂, hfull⟩ :
      ∃ answer s₂, S.call (.fullIds cfg.placeholderPassword) s₁ = (answer, s₂) := ⟨_, _, rfl⟩
  rcases answer with (e | h) | full
  · rw [Prog.exchanges_request_error hfull, Prog.run_request_error (congrArg Prod.fst hfull)]
    exact .unterminated empty (.error e)
  · rw [Prog.exchanges_request_halt hfull, Prog.run_request_halt hfull]
    exact .unterminated empty (.halt h)
  rw [Prog.exchanges_request_ok hfull, Prog.run_request_ok (congrArg Prod.fst hfull), hfull]
  simp only [if_neg hsize]
  obtain ⟨faults, hlogs, hend⟩ := exists_batchLogs S cfg full
    (fun b hb => ne_nil_of_mem_batchesOf (n := cfg.batchSize) (l := empty) hb) 0 [] s₂
  rcases hend with ⟨entries, hr, hgoes, hfailed⟩ | ⟨h, hr, hlast⟩
  · have hrun := Prog.run_eq hr
    rw [Prog.exchanges_bind_ok hrun, Prog.run_bind_ok hrun, Prog.exchanges_pure, List.append_nil]
    exact .batched hlogs hgoes hfailed
  · have hrun := Prog.run_eq hr
    rw [Prog.exchanges_bind_error hrun, Prog.run_bind_error hrun]
    exact .cutOff hlogs hlast

/-- Paths that no tree could give: two of them come to the same person with different logins, one passes somebody
twice and a full person on its way. -/
def crookedPaths : List UpwardPath :=
  [⟨⟨"a"⟩, [⟨"c"⟩, ⟨"a"⟩, ⟨"full"⟩, ⟨"a"⟩], ⟨"top"⟩, ⟨"top", "first"⟩⟩,
    ⟨⟨"a"⟩, [⟨"b"⟩], ⟨"other"⟩, ⟨"other", "real"⟩⟩,
    ⟨⟨"b"⟩, [⟨"b"⟩, ⟨"a"⟩], ⟨"top"⟩, ⟨"top", "second"⟩⟩]

/-- A store that knows of two empty people, answers with these paths for either of them, and refuses whatever it
is to write for the first. -/
def crookedStore : Store Nat where
  enter _ n := (.ok {}, n + 1)
  finish
    | .emptyIds, _, n => (.ok [⟨"a"⟩, ⟨"b"⟩], n)
    | .fullIds _, _, n => (.ok (.ofIds [⟨"full"⟩]), n)
    | .upwardPaths .., _, n => (.ok crookedPaths, n)
    | .setCredentials ids _ _, _, n =>
      if n ≤ 4 then (.error (.error (.unavailable "down")), n) else (.ok ids.length, n)
    | _, _, n => (.error (.error (.unavailable "down")), n)
  now _ := 0

/-- In the first batch the write for one terminator fails; in the second both are made. -/
theorem propagation_asks_crooked_store :
    RunLog { placeholderPassword := "changeme", batchSize := 1 }
      ((propagation { placeholderPassword := "changeme", batchSize := 1 }).exchanges crookedStore 0)
      ((propagation { placeholderPassword := "changeme", batchSize := 1 }).run crookedStore 0).1 ∧
    ((propagation { placeholderPassword := "changeme", batchSize := 1 }).run crookedStore 0).1 = .ok (.ok
      { report := {
          emptyNodes := 2, terminators := 1, batches := 2, failedBatches := [0], nodesWritten := 4 }
        batches := [⟨0, 1, .failed ⟨"a"⟩ (.unavailable "down")⟩, ⟨1, 1, .settled 4 0⟩] }) :=
  ⟨propagation_asks_store_for_writes rfl crookedStore 0, by decide +kernel⟩

end Downline
