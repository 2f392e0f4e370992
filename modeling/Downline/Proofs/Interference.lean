import Downline.Proofs.Memory
import Downline.Proofs.Program

/-! Memory with other writers at work: before each call takes effect, any number of changes may come from
outside. Every call is logged with the tree as it found it and as it left it. -/

namespace Downline

/-- A call that has taken effect: the tree right before it and right after it. -/
structure Effect where
  call : Call
  before : Tree
  after : Tree

/-- Memory, what others do to it before each call, and the calls so far, the latest first. -/
structure Watched where
  memory : MemoryStore
  /-- The changes from outside that precede the call of this number. -/
  outside : Nat → List Edit
  log : List Effect := []

namespace Watched

/-- Memory when the changes that precede the next call have been made. -/
def disturbed (w : Watched) : MemoryStore :=
  (w.outside w.log.length).foldl MemoryStore.edit w.memory

/-- Memory among other writers as a store. A call takes effect when it is carried out. -/
def store : Store Watched where
  enter _ w := (.ok {}, { w with memory := w.memory.arrive })
  finish c _ w :=
    let (answer, memory) := w.disturbed.perform c
    (answer, { w with
      memory := memory.leave
      log := ⟨c, w.disturbed.tree, memory.tree⟩ :: w.log })
  now _ := 0

end Watched

/-- The guard of a write, if the call is one, speaks of this placeholder. -/
def Call.GuardedBy (placeholder : String) : Call → Prop
  | setCredentials _ _ guard => guard.placeholder = placeholder
  | _ => True

/-- A write that the call asks for is guarded by this placeholder and does not give it away as a login. -/
def Call.GivesRealLogin (placeholder : String) : Call → Prop
  | setCredentials _ login guard => guard.placeholder = placeholder ∧ login.password ≠ placeholder
  | _ => True

/-- The call has left every full person alone, and changed nothing but the logins of people whom it lists,
who now hold exactly the login that it was given. -/
structure Effect.Lawful (placeholder : String) (e : Effect) : Prop where
  relations : e.after.relations = e.before.relations
  full : ∀ x, e.before.stateOf placeholder x = .full → e.after.person? x = e.before.person? x
  people : ∀ x, e.after.person? x = e.before.person? x ∨
    ∃ ids c guard r, e.call = .setCredentials ids c guard ∧ x ∈ ids ∧
      e.before.person? x = some r ∧ e.after.person? x = some (r.holding c)

namespace MemoryStore

variable {s : MemoryStore} {placeholder : String}

/-- Memory is lawful in every state, whatever the call asks. -/
theorem lawful_perform {c : Call} (hc : c.GuardedBy placeholder) :
    Effect.Lawful placeholder ⟨c, s.tree, (s.perform c).2.tree⟩ := by
  have hsame (h : (s.perform c).2.tree = s.tree) :
      Effect.Lawful placeholder ⟨c, s.tree, (s.perform c).2.tree⟩ :=
    ⟨by rw [h], fun x _ => by rw [h], fun x => .inl (by rw [h])⟩
  cases c with
  | setCredentials ids credentials guard =>
    rcases perform_setCredentials_cases (s := s) ids credentials guard with
      ⟨-, h, -⟩ | ⟨e, -, h, -⟩
    · refine ⟨?_, fun x hf => ?_, fun x => ?_⟩
      · dsimp only
        rw [h, Tree.relations_write]
      · dsimp only at hf ⊢
        rw [← show guard.placeholder = placeholder from hc] at hf
        rw [h, Tree.person?_write_of_full hf]
      · dsimp only
        rw [h]
        by_cases hx : x ∈ s.tree.writable ids guard
        · obtain ⟨hids, r, hr, -⟩ := Tree.person_of_writable hx
          exact .inr ⟨ids, credentials, guard, r, rfl, hids, hr,
            Tree.person?_write_of_writable hr hx⟩
        · exact .inl (Tree.person?_write_of_not_writable hx)
    · exact hsame h.tree
  | person | relations | emptyIds | fullIds | upwardPaths | rekeyCandidates | downwardPath
  | credentialCensus => exact hsame (tree_perform _ nofun)

end MemoryStore

namespace Watched

/-- Guarded calls add nothing but lawful effects to the log, whatever others do in between. -/
theorem keeps_lawful (placeholder : String) : store.Keeps (Call.GuardedBy placeholder)
    fun w => ∀ e ∈ w.log, e.Lawful placeholder where
  enter _ hw := hw
  finish hc hw := by
    intro e he
    rcases List.mem_cons.mp he with rfl | he
    · exact MemoryStore.lawful_perform hc
    · exact hw e he

end Watched

end Downline
