import Downline.Proofs.Memory
import Mathlib.Data.Finset.Card
import Mathlib.Data.Finset.Dedup

/-! A guarded write to a list of ids: it is refused as a whole or carried out as a whole, and it comes to the same
whichever way its ids are listed. -/

namespace Downline

namespace Tree

/-- The listed people whose login the guard lets a write replace. -/
def admitted (t : Tree) (ids : List PersonId) (guard : WriteGuard) : Finset PersonId :=
  ids.toFinset.filter fun x =>
    (t.person? x).any fun r => guard.permits r.attributes.username r.attributes.password

/-- `t'` is `t` after these people were given this login: what else is known of them, everybody else and all
relations are as they were. -/
structure GivenLogin (t t' : Tree) (written : Finset PersonId) (c : Credentials) : Prop where
  changed : ∀ x ∈ written, ∃ r, t.person? x = some r ∧
    t'.person? x = some { r with
      attributes := { r.attributes with username := some c.username, password := some c.password } }
  others : ∀ x, x ∉ written → t'.person? x = t.person? x
  relations : t'.relations = t.relations

variable {t : Tree} {ids ids' : List PersonId} {c : Credentials} {guard : WriteGuard} {x : PersonId}

theorem mem_admitted : x ∈ t.admitted ids guard ↔ x ∈ t.writable ids guard := by
  rw [admitted, Finset.mem_filter, List.mem_toFinset, mem_writable, permits]
  cases t.person? x <;> rfl

/-- A guarded write counts the people that it reaches, each once. -/
theorem fst_write_eq_card : (t.write ids c guard).1 = (t.admitted ids guard).card := by
  have hadmitted : (t.writable ids guard).toFinset = t.admitted ids guard := by
    ext x
    rw [List.mem_toFinset, mem_admitted]
  rw [fst_write, ← hadmitted, List.toFinset_card_of_nodup (t.nodup_writable ids guard)]

theorem givenLogin_write :
    t.GivenLogin (t.write ids c guard).2 (t.admitted ids guard) c where
  changed x hx := by
    have hw := mem_admitted.mp hx
    obtain ⟨-, r, hr, -⟩ := person_of_writable hw
    exact ⟨r, hr, person?_write_of_writable hr hw⟩
  others x hx := person?_write_of_not_writable fun hw => hx (mem_admitted.mpr hw)
  relations := t.relations_write ids c guard

/-- Only which ids are listed decides whom a guarded write reaches, and in which order. -/
theorem writable_congr (h : ∀ x, x ∈ ids' ↔ x ∈ ids) :
    t.writable ids' guard = t.writable ids guard := by
  have hequiv : (IdSet.ofIds ids').Equiv (IdSet.ofIds ids) :=
    Std.TreeSet.Equiv.of_forall_mem_iff fun x => by rw [IdSet.mem_ofIds, IdSet.mem_ofIds, h]
  rw [writable, writable, hequiv.toList_eq]

theorem write_congr (h : ∀ x, x ∈ ids' ↔ x ∈ ids) :
    t.write ids' c guard = t.write ids c guard := by
  rw [write, write, writable_congr h]

/-- After a guarded write of a real login the same write reaches nobody. -/
theorem writable_write (hc : c.password ≠ guard.placeholder) :
    (t.write ids c guard).2.writable ids guard = [] := by
  refine List.eq_nil_iff_forall_not_mem.mpr fun x hx => ?_
  obtain ⟨-, r, -, hn⟩ := person_of_writable hx
  -- Whoever was reached is full by now, and whoever was not is as before and is refused again.
  by_cases hw : x ∈ t.writable ids guard
  · exact hn (full_write_of_writable hw hc)
  · rw [mem_writable, permits, person?_write_of_not_writable hw] at hx
    exact hw (t.mem_writable.mpr hx)

theorem write_write (hc : c.password ≠ guard.placeholder) :
    (t.write ids c guard).2.write ids c guard = (0, (t.write ids c guard).2) := by
  rw [write, writable_write hc]
  rfl

end Tree

namespace MemoryStore

variable {s : MemoryStore} {ids : List PersonId} (c : Credentials) (guard : WriteGuard)

/-- The memory after a guarded write that reached `n` people and left this tree. -/
def afterWrite (s : MemoryStore) (n : Nat) (tree : Tree) : MemoryStore :=
  { s with
    tree
    usage := { s.arrive.leave.usage with
      writeCalls := s.usage.writeCalls + 1
      nodesWritten := s.usage.nodesWritten + n } }

theorem call_setCredentials_eq (s : MemoryStore) (ids : List PersonId) :
    store.call (.setCredentials ids c guard) s =
      match s.refusal? ids with
      | some e => (.error (.error e), s.afterWrite 0 s.tree)
      | none =>
        (.ok (s.tree.write ids c guard).1,
          s.afterWrite (s.tree.write ids c guard).1 (s.tree.write ids c guard).2) := by
  -- Refusals look at the failing ids alone, which the counts of the call leave as they are.
  have hr : ({ s.arrive with
      usage := { s.arrive.usage with writeCalls := s.arrive.usage.writeCalls + 1 } }
      : MemoryStore).refusal? ids = s.refusal? ids := rfl
  simp only [call_eq, perform, hr]
  cases s.refusal? ids <;> rfl

theorem call_setCredentials (h : ∀ x ∈ ids, x ∉ s.failing) :
    store.call (.setCredentials ids c guard) s =
      (.ok (s.tree.write ids c guard).1,
        s.afterWrite (s.tree.write ids c guard).1 (s.tree.write ids c guard).2) := by
  rw [call_setCredentials_eq, refusal?_eq_none.mpr h]

theorem call_setCredentials_refused (h : ∃ x ∈ ids, x ∈ s.failing) :
    ∃ e, store.call (.setCredentials ids c guard) s =
      (.error (.error e), s.afterWrite 0 s.tree) ∧ s.RefusedOver ids e := by
  obtain ⟨e, he, hover⟩ := exists_refusal h
  exact ⟨e, by rw [call_setCredentials_eq, he], hover⟩

/-- A guarded write fails exactly if a listed id is failing, and changes nobody then; otherwise it counts the
listed people whose login the guard permits and gives these the new one, with all else left as it was. Neither
the order of the ids nor how often they are listed matters, and a real login is written once: to write it again
counts and changes nobody. -/
theorem guarded_call_is_all_or_nothing (s : MemoryStore) (ids : List PersonId) (c : Credentials)
    (guard : WriteGuard) : ∃ answer after,
      store.call (.setCredentials ids c guard) s = (answer, after) ∧
      ((∃ f, answer = .error f) ↔ ∃ x ∈ ids, x ∈ s.failing) ∧
      (∀ f, answer = .error f →
        after.tree = s.tree ∧ ∃ e, f = .error e ∧ s.RefusedOver ids e) ∧
      (∀ n, answer = .ok n → n = (s.tree.admitted ids guard).card ∧
        s.tree.GivenLogin after.tree (s.tree.admitted ids guard) c) ∧
      (∀ ids', (∀ x, x ∈ ids' ↔ x ∈ ids) → ∃ answer',
        store.call (.setCredentials ids' c guard) s = (answer', after) ∧
          answer'.toOption = answer.toOption) ∧
      (∀ n, answer = .ok n → c.password ≠ guard.placeholder → ∃ after',
        store.call (.setCredentials ids c guard) after = (.ok 0, after') ∧
          after'.tree = after.tree) := by
  by_cases hf : ∃ x ∈ ids, x ∈ s.failing
  · obtain ⟨e, hcall, hover⟩ := call_setCredentials_refused c guard hf
    refine ⟨_, _, hcall, iff_of_true ⟨_, rfl⟩ hf, ?_, nofun, ?_, nofun⟩
    · intro f hanswer
      cases hanswer
      exact ⟨rfl, e, rfl, hover⟩
    · -- Which failing id comes first may differ, and with it the text of the refusal alone.
      intro ids' hsame
      have hf' : ∃ x ∈ ids', x ∈ s.failing := by simpa only [hsame] using hf
      obtain ⟨e', hcall', -⟩ := call_setCredentials_refused c guard hf'
      exact ⟨_, hcall', rfl⟩
  · have hnone : ∀ x ∈ ids, x ∉ s.failing := fun x hx hfx => hf ⟨x, hx, hfx⟩
    refine ⟨_, _, call_setCredentials c guard hnone, iff_of_false nofun hf, nofun, ?_, ?_, ?_⟩
    · intro n hanswer
      cases hanswer
      exact ⟨Tree.fst_write_eq_card, Tree.givenLogin_write⟩
    · intro ids' hsame
      have hnone' : ∀ x ∈ ids', x ∉ s.failing := by simpa only [hsame] using hnone
      refine ⟨_, ?_, rfl⟩
      rw [call_setCredentials c guard hnone', Tree.write_congr hsame]
    · intro n hanswer hc
      have hagain := call_setCredentials c guard
        (s := s.afterWrite (s.tree.write ids c guard).1 (s.tree.write ids c guard).2) hnone
      rw [afterWrite, Tree.write_write hc] at hagain
      exact ⟨_, hagain, rfl⟩

theorem guarded_call_rekeys_household :
    (∃ after, store.call (.setCredentials [⟨"c"⟩, ⟨"b"⟩, ⟨"c"⟩, ⟨"stranger"⟩] ⟨"boss", "real"⟩
        (.holdsPlaceholder "changeme")) { tree := .household } = (.ok 2, after) ∧
      ∃ after', store.call (.setCredentials [⟨"c"⟩, ⟨"b"⟩, ⟨"c"⟩, ⟨"stranger"⟩] ⟨"boss", "real"⟩
        (.holdsPlaceholder "changeme")) after = (.ok 0, after') ∧ after'.tree = after.tree) ∧
    ∃ e after, store.call (.setCredentials [⟨"b"⟩, ⟨"c"⟩] ⟨"boss", "real"⟩
        (.holdsPlaceholder "changeme")) { tree := .household, failing := .ofIds [⟨"c"⟩] } =
      (.error (.error e), after) ∧ after.tree = .household := by
  constructor
  · obtain ⟨answer, after, hcall, hfails, -, hcounts, -, hagain⟩ :=
      guarded_call_is_all_or_nothing { tree := .household }
        [⟨"c"⟩, ⟨"b"⟩, ⟨"c"⟩, ⟨"stranger"⟩] ⟨"boss", "real"⟩ (.holdsPlaceholder "changeme")
    cases answer with
    | error f =>
      obtain ⟨x, -, hx⟩ := hfails.mp ⟨f, rfl⟩
      exact absurd hx Std.TreeSet.not_mem_emptyc
    | ok n =>
      obtain ⟨hn, -⟩ := hcounts n rfl
      have hcard : n = 2 := hn.trans (by decide +kernel)
      rw [hcard] at hcall
      exact ⟨after, hcall, hagain n rfl (by decide)⟩
  · obtain ⟨answer, after, hcall, hfails, hkept, -⟩ :=
      guarded_call_is_all_or_nothing { tree := .household, failing := .ofIds [⟨"c"⟩] }
        [⟨"b"⟩, ⟨"c"⟩] ⟨"boss", "real"⟩ (.holdsPlaceholder "changeme")
    obtain ⟨f, rfl⟩ := hfails.mpr ⟨⟨"c"⟩, by decide, IdSet.mem_ofIds.mpr (by decide)⟩
    obtain ⟨htree, e, rfl, -⟩ := hkept f rfl
    exact ⟨e, after, hcall, htree⟩

end MemoryStore

end Downline
