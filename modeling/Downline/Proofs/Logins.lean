import Downline.Store.Tree.Lemmas
import Mathlib.Data.List.Nodup
import Mathlib.Data.List.Perm.Basic
import Mathlib.Tactic.Common

/-! Logins as the jobs see them: who is full or empty, what a guarded write does to the login of each
person, and how many people a tree holds whose login has changed. -/

namespace Downline

/-- The record with a complete login in place of what it held. -/
def PersonRecord.holding (r : PersonRecord) (c : Credentials) : PersonRecord :=
  { r with attributes := r.attributes.withLogin (some c) }

namespace PersonRecord

variable (r : PersonRecord) (c : Credentials)

@[simp]
theorem credentials_holding : (r.holding c).attributes.credentials? = some c := rfl

end PersonRecord

/-! ### States of a login -/

namespace CredentialState

variable {username password : Option String} {placeholder : String}

theorem classify_full_iff : classify username password placeholder = .full ↔
    ∃ c, Credentials.ofHalves? username password = some c ∧ c.password ≠ placeholder := by
  cases username <;> cases password <;> simp [classify, Credentials.ofHalves?]

theorem classify_empty_iff : classify username password placeholder = .empty ↔
    username.isNone ∨ password.isNone := by
  cases username <;> cases password <;> simp [classify]
  split <;> simp

theorem classify_ne_full_of_placeholder (h : password = some placeholder) :
    classify username password placeholder ≠ .full := by
  subst h
  cases username <;> simp [classify]

theorem password_of_classify (he : classify username password placeholder ≠ .empty)
    (hf : classify username password placeholder ≠ .full) : password = some placeholder := by
  cases username with
  | none => simp [classify] at he
  | some u =>
    cases password with
    | none => simp [classify] at he
    | some p =>
      by_cases hp : p = placeholder
      · rw [hp]
      · simp [classify, hp] at hf

end CredentialState

theorem WriteGuard.not_full_of_permits {g : WriteGuard} {username password : Option String}
    (h : g.permits username password = true) :
    CredentialState.classify username password g.placeholder ≠ .full := by
  cases g with
  | notFull p => simpa [permits, WriteGuard.placeholder] using h
  | holdsPlaceholder p =>
    have hp : password = some p := by simpa [permits] using h
    exact CredentialState.classify_ne_full_of_placeholder hp

namespace Tree

variable {t t' t₀ : Tree} {placeholder : String} {x : PersonId} {c : Credentials}

theorem stateOf_of_person {r : PersonRecord} (h : t.person? x = some r) :
    t.stateOf placeholder x = r.attributes.state placeholder := by
  rw [stateOf, h]

theorem credentialsOf_of_person {r : PersonRecord} (h : t.person? x = some r) :
    t.credentialsOf x = r.attributes.credentials? := by
  rw [credentialsOf, h, Option.bind_some]

theorem passwordOf_of_person {r : PersonRecord} (h : t.person? x = some r) :
    t.passwordOf x = r.attributes.password := by
  rw [passwordOf, h, Option.bind_some]

theorem stateOf_congr (h : t'.person? x = t.person? x) :
    t'.stateOf placeholder x = t.stateOf placeholder x := by
  rw [stateOf, stateOf, h]

theorem credentialsOf_congr (h : t'.person? x = t.person? x) :
    t'.credentialsOf x = t.credentialsOf x := by
  rw [credentialsOf, credentialsOf, h]

theorem passwordOf_congr (h : t'.person? x = t.person? x) : t'.passwordOf x = t.passwordOf x := by
  rw [passwordOf, passwordOf, h]

/-- A full id is a person with a complete login that is not the placeholder. -/
theorem stateOf_full_iff : t.stateOf placeholder x = .full ↔
    ∃ c, t.credentialsOf x = some c ∧ c.password ≠ placeholder := by
  unfold stateOf credentialsOf
  cases t.person? x with
  | none => simp
  | some r => exact CredentialState.classify_full_iff

theorem isSome_of_full (h : t.stateOf placeholder x = .full) : (t.person? x).isSome := by
  unfold stateOf at h
  cases hr : t.person? x with
  | none => rw [hr] at h; cases h
  | some r => rfl

theorem not_full_of_password (h : t.passwordOf x = some placeholder) :
    t.stateOf placeholder x ≠ .full := by
  intro hf
  obtain ⟨r, hr⟩ := Option.isSome_iff_exists.mp (isSome_of_full hf)
  rw [stateOf_of_person hr] at hf
  rw [passwordOf_of_person hr] at h
  exact CredentialState.classify_ne_full_of_placeholder h hf

theorem isSome_of_password (hp : t.passwordOf x = some placeholder) : (t.person? x).isSome := by
  unfold passwordOf at hp
  cases hr : t.person? x with
  | none => rw [hr] at hp; cases hp
  | some r => rfl

/-! ### Lists of people -/

theorem mem_people_toList {p : PersonId × PersonRecord} :
    p ∈ t.people.toList ↔ t.person? p.1 = some p.2 :=
  Std.TreeMap.mem_toList_iff_getElem?_eq_some

theorem map_id_filter_people (f : PersonId × PersonRecord → Bool) :
    (t.people.toList.filter f).map (·.2.id) = (t.people.toList.filter f).map (·.1) := by
  apply List.map_congr_left
  intro p hp
  exact t.keyed p.1 p.2 (mem_people_toList.mp (List.mem_of_mem_filter hp))

theorem nodup_filter_people (f : PersonId × PersonRecord → Bool) :
    ((t.people.toList.filter f).map (·.2.id)).Nodup := by
  have hn : (t.people.toList.map (·.1)).Nodup := by
    rw [show t.people.toList.map (·.1) = t.people.keys from Std.TreeMap.map_fst_toList_eq_keys]
    exact Std.TreeMap.nodup_keys
  rw [map_id_filter_people]
  exact hn.sublist (List.filter_sublist.map _)

theorem mem_filter_people {f : PersonId × PersonRecord → Bool} :
    x ∈ (t.people.toList.filter f).map (·.2.id) ↔ ∃ r, t.person? x = some r ∧ f (x, r) = true := by
  rw [map_id_filter_people, List.mem_map]
  constructor
  · intro h
    obtain ⟨p, hp, rfl⟩ := h
    obtain ⟨hm, hf⟩ := List.mem_filter.mp hp
    exact ⟨p.2, mem_people_toList.mp hm, hf⟩
  · intro h
    obtain ⟨r, hr, hf⟩ := h
    exact ⟨(x, r), List.mem_filter.mpr ⟨mem_people_toList.mpr hr, hf⟩, rfl⟩

theorem mem_emptyIds (placeholder : String) :
    x ∈ t.emptyIds ↔ (t.person? x).isSome ∧ t.stateOf placeholder x = .empty := by
  rw [emptyIds, mem_filter_people]
  cases hr : t.person? x with
  | none => simp
  | some r =>
    rw [stateOf_of_person hr, PersonAttributes.state, CredentialState.classify_empty_iff]
    simp

theorem nodup_fullList (t : Tree) (placeholder : String) : (t.fullList placeholder).Nodup :=
  nodup_filter_people _

theorem mem_fullList : x ∈ t.fullList placeholder ↔ t.stateOf placeholder x = .full := by
  rw [fullList, mem_filter_people]
  cases hr : t.person? x with
  | none => simp [stateOf, hr]
  | some r => simp [stateOf_of_person hr]

@[simp]
theorem mem_fullIds : x ∈ t.fullIds placeholder ↔ t.stateOf placeholder x = .full := by
  rw [fullIds, IdSet.mem_ofIds, mem_fullList]

/-- Whoever is neither empty nor full holds the placeholder. -/
theorem passwordOf_of_states (he : t.stateOf placeholder x ≠ .empty)
    (hf : t.stateOf placeholder x ≠ .full) : t.passwordOf x = some placeholder := by
  cases hr : t.person? x with
  | none => rw [stateOf, hr] at he; exact absurd rfl he
  | some r =>
    rw [stateOf_of_person hr] at he hf
    rw [passwordOf_of_person hr]
    exact CredentialState.password_of_classify he hf

/-! ### Guarded writes -/

section Write

variable {ids : List PersonId} {g : WriteGuard}

theorem person?_write_of_writable {r : PersonRecord} (hr : t.person? x = some r)
    (hx : x ∈ t.writable ids g) : (t.write ids c g).2.person? x = some (r.holding c) := by
  rw [person?_write, if_pos hx, hr, Option.map_some]
  rfl

theorem person?_write_of_not_writable (hx : x ∉ t.writable ids g) :
    (t.write ids c g).2.person? x = t.person? x := by
  rw [person?_write, if_neg hx]

/-- Whoever a guarded write reaches is listed, and a person who is not full. -/
theorem person_of_writable (h : x ∈ t.writable ids g) :
    x ∈ ids ∧ ∃ r, t.person? x = some r ∧ t.stateOf g.placeholder x ≠ .full := by
  obtain ⟨hx, hp⟩ := t.mem_writable.mp h
  refine ⟨hx, ?_⟩
  unfold permits at hp
  cases hr : t.person? x with
  | none => rw [hr] at hp; cases hp
  | some r =>
    rw [hr] at hp
    refine ⟨r, rfl, ?_⟩
    rw [stateOf_of_person hr]
    exact WriteGuard.not_full_of_permits hp

theorem writable_notFull {placeholder : String} : x ∈ t.writable ids (.notFull placeholder) ↔
    x ∈ ids ∧ (t.person? x).isSome ∧ t.stateOf placeholder x ≠ .full := by
  rw [mem_writable, permits, stateOf]
  cases t.person? x with
  | none => simp
  | some r => simp [WriteGuard.permits, PersonAttributes.state]

theorem writable_holdsPlaceholder {placeholder : String} :
    x ∈ t.writable ids (.holdsPlaceholder placeholder) ↔
      x ∈ ids ∧ t.passwordOf x = some placeholder := by
  rw [mem_writable, permits, passwordOf]
  cases t.person? x with
  | none => simp
  | some r => simp [WriteGuard.permits]

theorem person?_write_of_full (hf : t.stateOf g.placeholder x = .full) :
    (t.write ids c g).2.person? x = t.person? x := by
  refine person?_write_of_not_writable fun hx => ?_
  obtain ⟨-, r, -, hn⟩ := person_of_writable hx
  exact hn hf

/-- Whom a guarded write of a real login reaches is full afterwards. -/
theorem full_write_of_writable (hx : x ∈ t.writable ids g) (hc : c.password ≠ g.placeholder) :
    (t.write ids c g).2.stateOf g.placeholder x = .full := by
  obtain ⟨-, r, hr, -⟩ := person_of_writable hx
  exact stateOf_full_iff.mpr ⟨c, credentialsOf_of_person (person?_write_of_writable hr hx), hc⟩

/-- A guarded write to people who all hold the placeholder counts all of them. -/
theorem fst_write_of_passwords (hn : ids.Nodup)
    (hp : ∀ x ∈ ids, t.passwordOf x = some placeholder) :
    (t.write ids c (.holdsPlaceholder placeholder)).1 = ids.length := by
  rw [fst_write]
  refine ((List.perm_ext_iff_of_nodup (t.nodup_writable _ _) hn).mpr fun x => ?_).length_eq
  rw [writable_holdsPlaceholder]
  exact ⟨And.left, fun hx => ⟨hx, hp x hx⟩⟩

end Write

/-! ### Counting changed people -/

/-- The login of a person of `t` is not the one that it has in `t₀`. -/
def LoginChanged (t₀ t : Tree) (x : PersonId) : Prop :=
  ∃ r, t.person? x = some r ∧ ∀ r₀, t₀.person? x = some r₀ →
    r₀.attributes.username ≠ r.attributes.username ∨
      r₀.attributes.password ≠ r.attributes.password

theorem nodup_loginChanges (t₀ t : Tree) : ((t₀.loginChanges t).map (·.id)).Nodup := by
  rw [loginChanges, List.map_map]
  exact nodup_filter_people _

theorem mem_loginChanges :
    x ∈ (t₀.loginChanges t).map (·.id) ↔ t₀.LoginChanged t x := by
  rw [loginChanges, List.map_map, LoginChanged]
  refine mem_filter_people.trans (exists_congr fun r => and_congr_right fun _ => ?_)
  cases t₀.person? x <;> simp

theorem loginChanged_self : ¬ t.LoginChanged t x := by
  intro hh
  obtain ⟨r, hr, h⟩ := hh
  simpa using h r hr

/-- The changed people can be counted by any list that names each of them once. -/
theorem length_loginChanges {l : List PersonId} (hl : l.Nodup)
    (h : ∀ x, x ∈ l ↔ t₀.LoginChanged t x) : (t₀.loginChanges t).length = l.length := by
  have hp : ((t₀.loginChanges t).map (·.id)).Perm l := by
    refine (List.perm_ext_iff_of_nodup (nodup_loginChanges t₀ t) hl).mpr fun x => ?_
    rw [mem_loginChanges, h]
  rw [← hp.length_eq, List.length_map]

theorem length_loginChanges_self (t : Tree) : (t.loginChanges t).length = 0 :=
  length_loginChanges List.nodup_nil fun _ => iff_of_false List.not_mem_nil loginChanged_self

theorem length_loginChanges_congr (h : ∀ x, t'.person? x = t.person? x) :
    (t₀.loginChanges t').length = (t₀.loginChanges t).length := by
  rw [length_loginChanges (nodup_loginChanges t₀ t) fun x => ?_, List.length_map]
  rw [mem_loginChanges, LoginChanged, LoginChanged, h]

end Tree

end Downline
