import Downline.Proofs.Interference

/-! Stores that carry calls out as memory does and may refuse some of them: memory with failing ids, and
memory whose failing ids come and go between the calls. A job sees no more of such a store than its tree, its
count of written people, and which calls are refused. -/

namespace Downline

variable {σ : Type}

/-- While `I` holds of a store it takes every call in and carries it out like a memory with the same tree
and the same count; of the ids that fail at that time `may` holds. -/
structure Store.Hosts (S : Store σ) (memory : σ → MemoryStore) (may : IdSet → Prop) (I : σ → Prop) :
    Prop where
  enter : ∀ c s, I s → ∃ ticket s', S.enter c s = (.ok ticket, s') ∧ I s' ∧
    (memory s').Alike (memory s)
  finish : ∀ c ticket s, I s → ∃ (m : MemoryStore) (s' : σ), m.Alike (memory s) ∧
    may m.failing ∧ S.finish c ticket s = ((m.perform c).1, s') ∧ I s' ∧
      (memory s').Alike (m.perform c).2

/-- There may be an id whose calls fail. -/
def MayRefuse (may : IdSet → Prop) : Prop := ∃ failing x, may failing ∧ x ∈ failing

/-! ### Memory -/

theorem MemoryStore.hosts (failing : IdSet) :
    MemoryStore.store.Hosts id (· = failing) (·.failing = failing) where
  enter _ s hs := ⟨{}, s.arrive, rfl, hs, alike_arrive s⟩
  finish c _ s hs := ⟨s, (s.perform c).2.leave, .refl s, hs, rfl,
    (failing_perform c).trans hs, alike_leave _⟩

theorem MemoryStore.not_mayRefuse {failing : IdSet} (h : ∀ x, x ∉ failing) :
    ¬ MayRefuse (· = failing) := by
  rintro ⟨_, x, rfl, hx⟩
  exact h x hx

/-! ### Memory with outages -/

/-- A change from outside that is the beginning or the end of an outage. -/
def Edit.IsOutage : Edit → Prop
  | failOn _ => True
  | clearFailures => True
  | _ => False

theorem MemoryStore.alike_edit {s : MemoryStore} {e : Edit} (he : e.IsOutage) :
    (s.edit e).Alike s := by
  cases e with
  | failOn | clearFailures => exact ⟨rfl, rfl⟩
  | insert | attach | overwrite => exact he.elim

namespace Watched

/-- Outages are all that comes from outside. -/
def OutagesOnly (w : Watched) : Prop := ∀ n, ∀ e ∈ w.outside n, e.IsOutage

theorem OutagesOnly.alike_disturbed {w : Watched} (h : w.OutagesOnly) :
    w.disturbed.Alike w.memory := by
  have hfold (edits : List Edit) (he : ∀ e ∈ edits, e.IsOutage) (s : MemoryStore) :
      (edits.foldl MemoryStore.edit s).Alike s := by
    induction edits generalizing s with
    | nil => exact .refl s
    | cons e rest ih =>
      exact (ih (fun e' h' => he e' (List.mem_cons_of_mem e h')) _).trans
        (MemoryStore.alike_edit (he e List.mem_cons_self))
  exact hfold _ (h _) _

theorem hosts : store.Hosts Watched.memory (fun _ => True) OutagesOnly where
  enter _ w hw := ⟨{}, _, rfl, hw, w.memory.alike_arrive⟩
  finish _ _ w hw := ⟨w.disturbed, _, hw.alike_disturbed, trivial, rfl, hw,
    MemoryStore.alike_leave _⟩

/-- A call before which nothing happens outside. -/
theorem call_undisturbed {w : Watched} (h : w.outside w.log.length = []) (c : Call) :
    store.call c w = ((w.memory.arrive.perform c).1, { w with
      memory := (w.memory.arrive.perform c).2.leave
      log := ⟨c, w.memory.tree, (w.memory.arrive.perform c).2.tree⟩ :: w.log }) := by
  have hsame : disturbed { w with memory := w.memory.arrive } = w.memory.arrive := by
    rw [disturbed, h]
    rfl
  simp only [Store.call, store, hsame]
  rfl

end Watched

/-! ### Calls -/

namespace Store.Hosts

variable {S : Store σ} {memory : σ → MemoryStore} {may : IdSet → Prop} {I : σ → Prop} {s : σ}
  (h : S.Hosts memory may I) (hs : I s)
include h hs

theorem call (c : Call) : ∃ (m : MemoryStore) (s' : σ), m.Alike (memory s) ∧ may m.failing ∧
    S.call c s = ((m.perform c).1, s') ∧ I s' ∧ (memory s').Alike (m.perform c).2 := by
  obtain ⟨ticket, s₁, he, hs₁, ha₁⟩ := h.enter c s hs
  obtain ⟨m, s', ha, hm, hf, hs', ha'⟩ := h.finish c ticket s₁ hs₁
  exact ⟨m, s', ha.trans ha₁, hm, by rw [Store.call, he]; exact hf, hs', ha'⟩

theorem call_emptyIds : ∃ s', S.call .emptyIds s = (.ok (memory s).tree.emptyIds, s') ∧ I s' ∧
    (memory s').Alike (memory s) := by
  obtain ⟨m, s', ha, -, hc, hs', ha'⟩ := h.call hs .emptyIds
  exact ⟨s', by rw [hc, ← ha.tree]; rfl, hs', ha'.trans ha⟩

theorem call_fullIds (placeholder : String) :
    ∃ s', S.call (.fullIds placeholder) s = (.ok ((memory s).tree.fullIds placeholder), s') ∧
      I s' ∧ (memory s').Alike (memory s) := by
  obtain ⟨m, s', ha, -, hc, hs', ha'⟩ := h.call hs (.fullIds placeholder)
  exact ⟨s', by rw [hc, ← ha.tree]; rfl, hs', ha'.trans ha⟩

/-- Walks are answered, or refused over a failing id. -/
theorem call_upwardPaths (origins : List PersonId) (terminators : IdSet) (maxDepth : UInt32) :
    ∃ s', I s' ∧ (memory s').Alike (memory s) ∧
      (S.call (.upwardPaths origins terminators maxDepth) s =
          (.ok (origins.filterMap ((memory s).tree.upwardPath? terminators maxDepth)), s') ∨
        ∃ e, S.call (.upwardPaths origins terminators maxDepth) s = (.error (.error e), s') ∧
          MayRefuse may) := by
  obtain ⟨m, s', ha, hm, hc, hs', ha'⟩ := h.call hs (.upwardPaths origins terminators maxDepth)
  refine ⟨s', hs', (ha'.trans (MemoryStore.alike_perform _ nofun)).trans ha, ?_⟩
  rcases MemoryStore.reading_cases (s := m) origins
    (origins.filterMap (m.tree.upwardPath? terminators maxDepth)) with
    ⟨hr, -⟩ | ⟨e, hr, x, -, hx⟩
  · exact .inl (by rw [hc, ← ha.tree, MemoryStore.perform, hr])
  · exact .inr ⟨e, by rw [hc, MemoryStore.perform, hr], _, x, hm, hx⟩

/-- A guarded write is carried out and counted, or refused over a failing id without a trace. -/
theorem call_setCredentials (ids : List PersonId) (credentials : Credentials) (guard : WriteGuard) :
    ∃ s', I s' ∧
      ((S.call (.setCredentials ids credentials guard) s =
            (.ok ((memory s).tree.write ids credentials guard).1, s') ∧
          (memory s').tree = ((memory s).tree.write ids credentials guard).2 ∧
          (memory s').usage.nodesWritten = (memory s).usage.nodesWritten +
            ((memory s).tree.write ids credentials guard).1) ∨
        ∃ e, S.call (.setCredentials ids credentials guard) s = (.error (.error e), s') ∧
          (memory s').Alike (memory s) ∧ MayRefuse may) := by
  obtain ⟨m, s', ha, hm, hc, hs', ha'⟩ := h.call hs (.setCredentials ids credentials guard)
  refine ⟨s', hs', ?_⟩
  rcases MemoryStore.perform_setCredentials_cases (s := m) ids credentials guard with
    ⟨hr, ht, hn⟩ | ⟨e, hr, hsame, x, -, hx⟩
  · rw [← ha.tree, ← ha.nodesWritten]
    exact .inl ⟨by rw [hc, hr], ha'.tree.trans ht, ha'.nodesWritten.trans hn⟩
  · exact .inr ⟨e, by rw [hc, hr], (ha'.trans hsame).trans ha, _, x, hm, hx⟩

end Store.Hosts

end Downline
