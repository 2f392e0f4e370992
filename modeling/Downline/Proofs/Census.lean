import Downline.Proofs.Memory
import Mathlib.Data.Finset.Basic
import Mathlib.Data.Finset.Card
import Mathlib.Data.Finset.Dedup

/-! The people of a tree by credential state. The questions for empty and for full people and the census
divide the people among them in the same way, whatever has happened to the memory that they are put to. -/

namespace Downline

namespace CredentialCensus

/-- How many people are counted in a state. -/
def count (c : CredentialCensus) : CredentialState → UInt64
  | .empty => c.empty
  | .placeholder => c.placeholder
  | .full => c.full

theorem count_record (c : CredentialCensus) (state state' : CredentialState) :
    (c.record state).count state' = c.count state' + .ofNat (if state == state' then 1 else 0) := by
  cases state <;> cases state' <;> simp [record, count]

theorem total_record (c : CredentialCensus) (state : CredentialState) :
    (c.record state).total = c.total + 1 := by
  cases state <;> simp only [record, total] <;> ac_rfl

end CredentialCensus

/-! ### Trees -/

namespace Tree

variable {t : Tree} {placeholder : String} {state : CredentialState} {x : PersonId}

/-- The people in a state, in ascending order. -/
def inState (t : Tree) (placeholder : String) (state : CredentialState) : List PersonId :=
  (t.people.toList.filter fun p => p.2.attributes.state placeholder == state).map (·.2.id)

theorem mem_inState : x ∈ t.inState placeholder state ↔
    ∃ r, t.person? x = some r ∧ r.attributes.state placeholder = state := by
  simp [inState, mem_filter_people]

theorem nodup_inState (t : Tree) (placeholder : String) (state : CredentialState) :
    (t.inState placeholder state).Nodup :=
  nodup_filter_people _

theorem ascending_inState (t : Tree) (placeholder : String) (state : CredentialState) :
    (t.inState placeholder state).Pairwise fun a b => compare a b = .lt := by
  rw [inState, map_id_filter_people, List.pairwise_map]
  exact Std.TreeMap.ordered_keys_toList.filter _

/-- A login with a missing half is empty, whatever the placeholder. -/
theorem emptyIds_eq_inState (t : Tree) (placeholder : String) :
    t.emptyIds = t.inState placeholder .empty := by
  have hstate : ∀ p : PersonId × PersonRecord,
      (p.2.attributes.username.isNone || p.2.attributes.password.isNone) =
        (p.2.attributes.state placeholder == .empty) := by
    intro p
    rw [Bool.eq_iff_iff, beq_iff_eq, Bool.or_eq_true]
    exact CredentialState.classify_empty_iff.symm
  simp only [emptyIds, inState, hstate]

/-- The census counts the people in each state, in the width of its counters. -/
theorem count_census (t : Tree) (placeholder : String) (state : CredentialState) :
    (t.census placeholder).count state = .ofNat (t.inState placeholder state).length := by
  have hfold (l : List (PersonId × PersonRecord)) (c : CredentialCensus) :
      (l.foldl (fun c p => c.record (p.2.attributes.state placeholder)) c).count state =
        c.count state + .ofNat (l.filter fun p => p.2.attributes.state placeholder == state).length := by
    induction l generalizing c with
    | nil => simp
    | cons p rest ih =>
      rw [List.foldl_cons, ih, CredentialCensus.count_record, List.filter_cons, UInt64.add_assoc,
        ← UInt64.ofNat_add]
      congr 2
      split
      · rw [List.length_cons, Nat.add_comm]
      · rw [Nat.zero_add]
  have hnone : ({} : CredentialCensus).count state = 0 := by cases state <;> rfl
  rw [census, hfold, hnone, inState, List.length_map]
  exact UInt64.zero_add _

theorem full_census (t : Tree) (placeholder : String) :
    (t.census placeholder).full = .ofNat (t.fullList placeholder).length :=
  t.count_census placeholder .full

theorem total_census (t : Tree) (placeholder : String) :
    (t.census placeholder).total = .ofNat t.people.keys.length := by
  have hfold (l : List (PersonId × PersonRecord)) (c : CredentialCensus) :
      (l.foldl (fun c p => c.record (p.2.attributes.state placeholder)) c).total =
        c.total + .ofNat l.length := by
    induction l generalizing c with
    | nil => simp
    | cons p rest ih =>
      rw [List.foldl_cons, ih, CredentialCensus.total_record, List.length_cons, UInt64.ofNat_add]
      ac_rfl
  rw [census, hfold, ← Std.TreeMap.map_fst_toList_eq_keys, List.length_map]
  exact UInt64.zero_add _

/-- A set of full people has as many members as their list. -/
theorem size_fullIds (t : Tree) (placeholder : String) :
    (t.fullIds placeholder).size = (t.inState placeholder .full).length := by
  rw [← Std.TreeSet.length_toList]
  refine ((List.perm_ext_iff_of_nodup (IdSet.nodup_toList _)
    (t.nodup_inState placeholder .full)).mpr fun x => ?_).length_eq
  rw [Std.TreeSet.mem_toList, fullIds, IdSet.mem_ofIds]
  rfl

end Tree

/-! ### Memories -/

/-- What can happen to a memory: a change from outside, or a call. -/
inductive Incident where
  | edit (e : Edit)
  | call (c : Call)

/-- The id of the person that an incident adds or replaces. -/
def Incident.inserted? : Incident → Option PersonId
  | edit (.insert r) => some r.id
  | _ => none

/-- The ids of all people that were ever inserted. -/
def inserted (history : List Incident) : Finset PersonId :=
  (history.filterMap Incident.inserted?).toFinset

namespace MemoryStore

def meet (s : MemoryStore) : Incident → MemoryStore
  | .edit e => s.edit e
  | .call c => (store.call c s).2

/-- A memory that was empty at first, after all that has happened to it. -/
def grown (history : List Incident) : MemoryStore :=
  history.foldl meet { tree := default }

theorem grown_concat (before : List Incident) (i : Incident) :
    grown (before ++ [i]) = (grown before).meet i := by
  rw [grown, List.foldl_append]
  rfl

variable {s : MemoryStore} {x : PersonId}

theorem isSome_person?_call (c : Call) :
    ((store.call c s).2.tree.person? x).isSome = (s.tree.person? x).isSome := by
  rw [call_eq]
  by_cases hc : c.operation = .setCredentials
  · cases c with
    | setCredentials ids login guard =>
      rcases perform_setCredentials_cases (s := s.arrive) ids login guard with
        ⟨-, htree, -⟩ | ⟨-, -, hsame, -⟩
      · have hwritten : ((s.arrive.perform (.setCredentials ids login guard)).2.leave).tree =
            (s.tree.write ids login guard).2 := htree
        rw [hwritten, Tree.person?_write]
        split
        · exact Option.isSome_map
        · rfl
      · have hkept : ((s.arrive.perform (.setCredentials ids login guard)).2.leave).tree = s.tree :=
          hsame.tree
        rw [hkept]
    | person | relations | emptyIds | fullIds | upwardPaths | rekeyCandidates | downwardPath
    | credentialCensus => cases hc
  · have hkept : (s.arrive.perform c).2.leave.tree = s.tree := tree_perform c hc
    rw [hkept]

/-- Only an insertion makes somebody a person, and nothing unmakes one. -/
theorem isSome_person?_meet (i : Incident) :
    ((s.meet i).tree.person? x).isSome ↔ i.inserted? = some x ∨ (s.tree.person? x).isSome := by
  cases i with
  | call c =>
    rw [meet, isSome_person?_call]
    exact (or_iff_right nofun).symm
  | edit e =>
    cases e with
    | insert r =>
      simp only [meet, edit, Tree.person?_insert, Incident.inserted?, Option.some.injEq]
      split
      next he => exact iff_of_true rfl (.inl he)
      next he => exact (or_iff_right he).symm
    | overwrite id login =>
      refine Iff.trans ?_ (or_iff_right nofun).symm
      simp only [meet, edit, Tree.person?_setLogin]
      split
      · rw [Option.isSome_map]
      · rfl
    | attach | failOn | clearFailures => exact (or_iff_right nofun).symm

/-- The people of a memory are those who were ever inserted. -/
theorem isSome_person?_grown (history : List Incident) :
    ((grown history).tree.person? x).isSome ↔ x ∈ inserted history := by
  -- Over a history that grows at its end: `grown` puts the latest incident last.
  rw [inserted, List.mem_toFinset, List.mem_filterMap]
  induction history using List.reverseRecOn with
  | nil =>
    have hempty : (grown []).tree.person? x = none := Std.TreeMap.getElem?_emptyc
    simp [hempty]
  | append_singleton before latest ih =>
    rw [grown_concat, isSome_person?_meet, ih]
    simp only [List.mem_append, List.mem_singleton]
    grind

end MemoryStore

/-- How the people of a tree are divided among the empty, the full and the others. -/
structure Tree.Divided (t : Tree) (placeholder : String) (people : Finset PersonId)
    (empty : List PersonId) (full : IdSet) (census : CredentialCensus) : Prop where
  person_iff : ∀ x, x ∈ people ↔ (t.person? x).isSome
  /-- Whoever is found under an id bears it. -/
  keyed : ∀ x r, t.person? x = some r → r.id = x
  ascending : empty.Pairwise fun a b => compare a b = .lt
  empty_iff : ∀ x, x ∈ empty ↔ ∃ r, t.person? x = some r ∧ r.attributes.state placeholder = .empty
  full_iff : ∀ x, x ∈ full ↔ ∃ r, t.person? x = some r ∧ r.attributes.state placeholder = .full
  disjoint : ∀ x ∈ empty, x ∉ full
  /-- Each group is counted in the width of the counters. -/
  counts : census = {
    empty := .ofNat empty.length
    placeholder := .ofNat (people.filter fun x => x ∉ empty ∧ x ∉ full).card
    full := .ofNat full.size }
  total : census.total = .ofNat people.card

namespace Tree

variable {t : Tree} {placeholder : String} {people : Finset PersonId}

/-- Those who are neither empty nor full hold the placeholder. -/
theorem card_others (hpeople : ∀ x, x ∈ people ↔ (t.person? x).isSome) :
    (people.filter fun x => x ∉ t.emptyIds ∧ x ∉ t.fullIds placeholder).card =
      (t.inState placeholder .placeholder).length := by
  rw [← List.toFinset_card_of_nodup (t.nodup_inState placeholder .placeholder)]
  congr 1
  ext x
  rw [Finset.mem_filter, List.mem_toFinset, hpeople, emptyIds_eq_inState t placeholder, fullIds,
    IdSet.mem_ofIds, show t.fullList placeholder = t.inState placeholder .full from rfl]
  simp only [mem_inState]
  cases t.person? x with
  | none => simp
  | some r => cases hr : r.attributes.state placeholder <;> simp [hr]

theorem card_people (hpeople : ∀ x, x ∈ people ↔ (t.person? x).isSome) :
    people.card = t.people.keys.length := by
  rw [← List.toFinset_card_of_nodup Std.TreeMap.nodup_keys]
  congr 1
  ext x
  rw [hpeople, List.mem_toFinset, Std.TreeMap.mem_keys, Std.TreeMap.mem_iff_isSome_getElem?]
  rfl

theorem divided (t : Tree) (placeholder : String)
    (hpeople : ∀ x, x ∈ people ↔ (t.person? x).isSome) :
    t.Divided placeholder people t.emptyIds (t.fullIds placeholder) (t.census placeholder) := by
  have hempty : ∀ x, x ∈ t.emptyIds ↔
      ∃ r, t.person? x = some r ∧ r.attributes.state placeholder = .empty := by
    intro x
    rw [emptyIds_eq_inState t placeholder, mem_inState]
  have hfull : ∀ x, x ∈ t.fullIds placeholder ↔
      ∃ r, t.person? x = some r ∧ r.attributes.state placeholder = .full := by
    intro x
    rw [fullIds, IdSet.mem_ofIds]
    exact mem_inState
  refine ⟨hpeople, t.keyed, ?_, hempty, hfull, ?_, ?_, ?_⟩
  · rw [emptyIds_eq_inState t placeholder]
    exact t.ascending_inState placeholder .empty
  · intro x he hf
    obtain ⟨r, hr, hstate⟩ := (hempty x).mp he
    obtain ⟨r', hr', hstate'⟩ := (hfull x).mp hf
    cases hr.symm.trans hr'
    rw [hstate] at hstate'
    cases hstate'
  · rw [card_others hpeople, size_fullIds, emptyIds_eq_inState t placeholder,
      ← count_census, ← count_census, ← count_census]
    rfl
  · rw [card_people hpeople]
    exact t.total_census placeholder

end Tree

open MemoryStore in
/-- Whatever people were inserted, replaced, attached, given other logins and written to by guarded calls, in
whichever order: the answers to the three questions divide all people ever inserted into those with no complete
login, in ascending order, those with a real one, and those who hold the placeholder. -/
theorem state_questions_divide_people (history : List Incident) (placeholder : String) :
    ∃ empty full census,
      (store.call .emptyIds (grown history)).1 = .ok empty ∧
      (store.call (.fullIds placeholder) (grown history)).1 = .ok full ∧
      (store.call (.credentialCensus placeholder) (grown history)).1 = .ok census ∧
      (grown history).tree.Divided placeholder (inserted history) empty full census :=
  ⟨_, _, _, rfl, rfl, rfl,
    (grown history).tree.divided placeholder fun _ => (isSome_person?_grown history).symm⟩

/-- A person who is replaced is counted once, with the login of the later record. -/
example : (MemoryStore.grown [
    .edit (.insert { id := ⟨"a"⟩, attributes := { username := some "a", password := some "real" } }),
    .edit (.insert { id := ⟨"b"⟩, attributes := { username := some "b", password := some "changeme" } }),
    .edit (.insert { id := ⟨"a"⟩, attributes := { password := some "changeme" } })]).tree.census
      "changeme" = { empty := 1, placeholder := 1, full := 0 } := by
  decide +kernel

end Downline
