import Downline.Proofs.Logins
import Downline.Store.Memory

/-! What one call does to the in-memory store: what it answers, what becomes of the tree, and that the
failing ids stay as they are. -/

namespace Downline

/-- The ids that a call names. -/
def Call.names : Call → List PersonId
  | person id => [id]
  | relations id => [id]
  | upwardPaths origins _ _ => origins
  | downwardPath start last _ => [start, last]
  | setCredentials ids _ _ => ids
  | emptyIds | fullIds _ | rekeyCandidates _ _ | credentialCensus _ => []

theorem Call.not_names_failing {failing : IdSet} (h : ∀ x, x ∉ failing) (c : Call) :
    ¬ ∃ x ∈ c.names, x ∈ failing := by
  intro hh
  obtain ⟨x, -, hx⟩ := hh
  exact h x hx

namespace MemoryStore

variable {s : MemoryStore}

theorem refusal?_eq_none {ids : List PersonId} :
    s.refusal? ids = none ↔ ∀ id ∈ ids, id ∉ s.failing := by
  simp [refusal?]

/-- The refusal of a call over the first failing id among those that it names. -/
def RefusedOver (s : MemoryStore) (ids : List PersonId) (e : StoreError) : Prop :=
  ∃ before x after, ids = before ++ x :: after ∧ x ∈ s.failing ∧ (∀ y ∈ before, y ∉ s.failing) ∧
    e = .unavailable s!"simulated failure touching {x.text}"

theorem exists_refusal {ids : List PersonId} (h : ∃ x ∈ ids, x ∈ s.failing) :
    ∃ e, s.refusal? ids = some e ∧ s.RefusedOver ids e := by
  cases hr : s.refusal? ids with
  | none =>
    obtain ⟨x, hx, hf⟩ := h
    exact absurd hf (refusal?_eq_none.mp hr x hx)
  | some e =>
    obtain ⟨x, hx, rfl⟩ := Option.map_eq_some_iff.mp hr
    obtain ⟨hfail, before, after, rfl, hbefore⟩ := List.find?_eq_some_iff_append.mp hx
    refine ⟨_, rfl, before, x, after, rfl, Std.TreeSet.contains_iff_mem.mp hfail, ?_, rfl⟩
    intro y hy hmem
    have hnot := hbefore y hy
    rw [Std.TreeSet.contains_iff_mem.mpr hmem] at hnot
    cases hnot

theorem call_eq (c : Call) (s : MemoryStore) :
    store.call c s = ((s.arrive.perform c).1, (s.arrive.perform c).2.leave) := rfl

theorem reading_snd {α : Type} (ids : List PersonId) (answer : α) :
    (s.reading ids answer).2 = s := by
  unfold reading
  split <;> rfl

/-- A question that names ids is answered, or refused over a failing one among them. -/
theorem reading_cases {α : Type} (ids : List PersonId) (answer : α) :
    (s.reading ids answer = (.ok answer, s) ∧ ∀ x ∈ ids, x ∉ s.failing) ∨
      ∃ e, s.reading ids answer = (.error (.error e), s) ∧ ∃ x ∈ ids, x ∈ s.failing := by
  unfold reading
  cases hr : s.refusal? ids with
  | none => exact .inl ⟨rfl, refusal?_eq_none.mp hr⟩
  | some e =>
    refine .inr ⟨e, rfl, ?_⟩
    by_contra hnone
    have hall : s.refusal? ids = none :=
      refusal?_eq_none.mpr fun x hx hf => hnone ⟨x, hx, hf⟩
    rw [hall] at hr
    cases hr

theorem reading_ok {α : Type} {ids : List PersonId} {answer : α}
    (h : ∀ id ∈ ids, id ∉ s.failing) : (s.reading ids answer).1 = .ok answer := by
  rcases reading_cases (s := s) ids answer with ⟨hr, -⟩ | ⟨e, -, x, hx, hf⟩
  · rw [hr]
  · exact absurd hf (h x hx)

theorem reading_refused {α : Type} {ids : List PersonId} {answer : α}
    (h : ∃ x ∈ ids, x ∈ s.failing) :
    ∃ e, (s.reading ids answer).1 = .error (.error e) ∧ s.RefusedOver ids e := by
  obtain ⟨e, he, hover⟩ := exists_refusal h
  exact ⟨e, by rw [reading, he], hover⟩

/-! ### The tree, the count and the failing ids -/

/-- Two memories hold the same tree and have written as many people. -/
structure Alike (s s' : MemoryStore) : Prop where
  tree : s.tree = s'.tree
  nodesWritten : s.usage.nodesWritten = s'.usage.nodesWritten

theorem Alike.refl (s : MemoryStore) : s.Alike s := ⟨rfl, rfl⟩

theorem Alike.symm {s s' : MemoryStore} (h : s.Alike s') : s'.Alike s :=
  ⟨h.tree.symm, h.nodesWritten.symm⟩

theorem Alike.trans {s s' s'' : MemoryStore} (h : s.Alike s') (h' : s'.Alike s'') : s.Alike s'' :=
  ⟨h.tree.trans h'.tree, h.nodesWritten.trans h'.nodesWritten⟩

theorem alike_arrive (s : MemoryStore) : s.arrive.Alike s := ⟨rfl, rfl⟩

theorem alike_leave (s : MemoryStore) : s.leave.Alike s := ⟨rfl, rfl⟩

theorem alike_perform (c : Call) (h : c.operation ≠ .setCredentials) : (s.perform c).2.Alike s := by
  cases c with
  | person | upwardPaths | downwardPath =>
    simp only [perform, reading_snd]
    exact .refl s
  | emptyIds | fullIds | credentialCensus => exact .refl s
  | relations id =>
    simp only [perform]
    split
    · exact ⟨rfl, rfl⟩
    · split <;> exact ⟨rfl, rfl⟩
  | rekeyCandidates placeholder maxDepth =>
    simp only [perform]
    split <;> exact .refl s
  | setCredentials => exact absurd rfl h

theorem tree_perform (c : Call) (h : c.operation ≠ .setCredentials) :
    (s.perform c).2.tree = s.tree :=
  (alike_perform c h).tree

theorem failing_perform (c : Call) : (s.perform c).2.failing = s.failing := by
  cases c with
  | person | upwardPaths | downwardPath => simp only [perform, reading_snd]
  | emptyIds | fullIds | credentialCensus => rfl
  | relations id =>
    simp only [perform]
    split
    · rfl
    · split <;> rfl
  | rekeyCandidates | setCredentials =>
    simp only [perform]
    split <;> rfl

theorem tree_call (c : Call) (h : c.operation ≠ .setCredentials) :
    (store.call c s).2.tree = s.tree :=
  tree_perform c h

@[simp]
theorem failing_call (c : Call) : (store.call c s).2.failing = s.failing := failing_perform c

section Discovery

variable {placeholder : String} {maxDepth : UInt32} {s' : MemoryStore}
  {r : Except Fault (List ChainCandidate)}
  (h : store.call (.rekeyCandidates placeholder maxDepth) s = (r, s'))
include h

theorem tree_of_discovery : s'.tree = s.tree := by
  have ht := tree_call (s := s) (.rekeyCandidates placeholder maxDepth) nofun
  rwa [h] at ht

theorem failing_of_discovery : s'.failing = s.failing := by
  have hf := failing_call (s := s) (.rekeyCandidates placeholder maxDepth)
  rwa [h] at hf

/-- Discovery over memory names no id, so it succeeds or breaks down. -/
theorem discovery_cases :
    (∃ candidates, r = .ok candidates ∧
      s.tree.rekeyCandidates placeholder maxDepth = .ok candidates) ∨
    ∃ reason, r = .error (.halt (.panic reason)) ∧
      s.tree.rekeyCandidates placeholder maxDepth = .error reason := by
  have hr := congrArg Prod.fst h
  rw [call_eq, perform] at hr
  have harrive : s.arrive.tree = s.tree := rfl
  rw [harrive] at hr
  cases hc : s.tree.rekeyCandidates placeholder maxDepth with
  | ok candidates =>
    rw [hc] at hr
    exact .inl ⟨candidates, hr.symm, rfl⟩
  | error reason =>
    rw [hc] at hr
    exact .inr ⟨reason, hr.symm, rfl⟩

end Discovery

/-! ### Answers -/

theorem call_emptyIds : (store.call .emptyIds s).1 = .ok s.tree.emptyIds := rfl

theorem call_fullIds (placeholder : String) :
    (store.call (.fullIds placeholder) s).1 = .ok (s.tree.fullIds placeholder) := rfl

theorem call_upwardPaths {origins : List PersonId} (h : ∀ id ∈ origins, id ∉ s.failing)
    (terminators : IdSet) (maxDepth : UInt32) :
    (store.call (.upwardPaths origins terminators maxDepth) s).1 =
      .ok (origins.filterMap (s.tree.upwardPath? terminators maxDepth)) :=
  reading_ok (s := s.arrive) h

theorem call_upwardPaths_refused {origins : List PersonId} (terminators : IdSet) (maxDepth : UInt32)
    (h : ∃ id ∈ origins, id ∈ s.failing) :
    ∃ e, (store.call (.upwardPaths origins terminators maxDepth) s).1 = .error (.error e) ∧
      s.RefusedOver origins e :=
  reading_refused (s := s.arrive) h

theorem call_downwardPath {start last : PersonId} (hs : start ∉ s.failing)
    (hl : last ∉ s.failing) (maxDepth : UInt32) :
    (store.call (.downwardPath start last maxDepth) s).1 =
      .ok (s.tree.downwardPath? start last maxDepth) :=
  reading_ok (s := s.arrive)
    (List.forall_mem_cons.mpr ⟨hs, List.forall_mem_singleton.mpr hl⟩)

theorem call_rekeyCandidates {placeholder : String} {maxDepth : UInt32}
    {candidates : List ChainCandidate}
    (h : s.tree.rekeyCandidates placeholder maxDepth = .ok candidates) :
    (store.call (.rekeyCandidates placeholder maxDepth) s).1 = .ok candidates := by
  have harrive : s.arrive.tree.rekeyCandidates placeholder maxDepth = .ok candidates := h
  rw [call_eq, perform, harrive]

/-- A guarded write is carried out and counted, or refused over a failing id among those that it
lists. -/
theorem perform_setCredentials_cases (ids : List PersonId) (credentials : Credentials)
    (guard : WriteGuard) :
    ((s.perform (.setCredentials ids credentials guard)).1 =
        .ok (s.tree.write ids credentials guard).1 ∧
      (s.perform (.setCredentials ids credentials guard)).2.tree =
        (s.tree.write ids credentials guard).2 ∧
      (s.perform (.setCredentials ids credentials guard)).2.usage.nodesWritten =
        s.usage.nodesWritten + (s.tree.write ids credentials guard).1) ∨
      ∃ e, (s.perform (.setCredentials ids credentials guard)).1 = .error (.error e) ∧
        (s.perform (.setCredentials ids credentials guard)).2.Alike s ∧
        ∃ x ∈ ids, x ∈ s.failing := by
  simp only [perform, refusal?]
  cases hf : ids.find? s.failing.contains with
  | none => exact .inl ⟨rfl, rfl, rfl⟩
  | some x =>
    have hx : x ∈ s.failing := by simpa using List.find?_some hf
    exact .inr ⟨_, rfl, ⟨rfl, rfl⟩, x, List.mem_of_find?_eq_some hf, hx⟩

end MemoryStore

end Downline
