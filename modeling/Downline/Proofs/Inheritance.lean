import Downline.Proofs.Ancestry
import Downline.Proofs.Logins

/-! Logins taken over from above. A tree is contained in what another tree hands down when everyone
holds either the login held there or that of the nearest full person above, as it was there. Guarded
writes of inherited logins keep a tree contained, and what is inherited stays the same. -/

namespace Downline.Tree

/-- `a` is the nearest full proper ancestor of `id`, `k` edges above it. -/
abbrev NearestFull (t : Tree) (placeholder : String) (k : Nat) (id a : PersonId) : Prop :=
  t.FirstAbove (t.stateOf placeholder · = .full) k id a

/-- `c` is the login of the nearest full proper ancestor of `id`. -/
def Inherits (t : Tree) (placeholder : String) (id : PersonId) (c : Credentials) : Prop :=
  ∃ k a, t.NearestFull placeholder k id a ∧ t.credentialsOf a = some c

/-- A person who is not full in `t₀` holds in `t` the login of its nearest full proper ancestor. -/
def TakenOver (t₀ t : Tree) (placeholder : String) (x : PersonId) : Prop :=
  ∃ r c, t₀.person? x = some r ∧ t₀.stateOf placeholder x ≠ .full ∧
    t₀.Inherits placeholder x c ∧ t.person? x = some (r.holding c)

/-- Everyone in `t` is as in `t₀` or has taken over the login from above, and nothing else differs. -/
structure Contained (t₀ t : Tree) (placeholder : String) : Prop where
  relations : t.relations = t₀.relations
  people : ∀ x, t.person? x = t₀.person? x ∨ t₀.TakenOver t placeholder x

variable {t₀ t t' : Tree} {placeholder : String} {x a : PersonId} {c c' : Credentials} {k : Nat}

/-! ### Inherited logins -/

theorem Inherits.unique (h : t.Inherits placeholder x c) (h' : t.Inherits placeholder x c') :
    c = c' := by
  obtain ⟨k, a, ha, hc⟩ := h
  obtain ⟨k', a', ha', hc'⟩ := h'
  obtain ⟨-, rfl⟩ := ha.unique ha'
  exact Option.some.inj (hc.symm.trans hc')

theorem Inherits.password_ne (h : t.Inherits placeholder x c) : c.password ≠ placeholder := by
  obtain ⟨k, a, ha, hc⟩ := h
  obtain ⟨c', hc', hp⟩ := stateOf_full_iff.mp ha.holds
  cases hc.symm.trans hc'
  exact hp

theorem Inherits.of_parent {p : PersonId} (hp : t.parentOf x = some p)
    (hf : t.stateOf placeholder p = .full) (hc : t.credentialsOf p = some c) :
    t.Inherits placeholder x c :=
  ⟨1, p, .of_parent hp hf, hc⟩

theorem Inherits.further {p : PersonId} (hp : t.parentOf x = some p)
    (hn : t.stateOf placeholder p ≠ .full) (h : t.Inherits placeholder p c) :
    t.Inherits placeholder x c := by
  obtain ⟨k, a, ha, hc⟩ := h
  exact ⟨k + 1, a, ha.further hp hn, hc⟩

theorem FirstAbove.exists_inherits (h : t.NearestFull placeholder k x a) :
    ∃ c, t.credentialsOf a = some c ∧ t.Inherits placeholder x c := by
  obtain ⟨c, hc, -⟩ := stateOf_full_iff.mp h.holds
  exact ⟨c, hc, k, a, h, hc⟩

/-! ### People who have taken over a login -/

namespace TakenOver

theorem full (h : t₀.TakenOver t placeholder x) : t.stateOf placeholder x = .full := by
  obtain ⟨r, c, -, -, hi, hx⟩ := h
  exact stateOf_full_iff.mpr ⟨c, credentialsOf_of_person hx, hi.password_ne⟩

theorem not_full (h : t₀.TakenOver t placeholder x) : t₀.stateOf placeholder x ≠ .full := by
  obtain ⟨r, c, -, hn, -, -⟩ := h
  exact hn

theorem credentials (h : t₀.TakenOver t placeholder x) :
    ∃ c, t₀.Inherits placeholder x c ∧ t.credentialsOf x = some c := by
  obtain ⟨r, c, -, -, hi, hx⟩ := h
  exact ⟨c, hi, credentialsOf_of_person hx⟩

end TakenOver

/-! ### Containment -/

namespace Contained

theorem refl (t : Tree) (placeholder : String) : t.Contained t placeholder :=
  ⟨rfl, fun _ => .inl rfl⟩

variable (h : t₀.Contained t placeholder)
include h

theorem parentOf (x : PersonId) : t.parentOf x = t₀.parentOf x := by
  rw [Tree.parentOf, relationsOf, h.relations, Tree.parentOf, relationsOf]

theorem childrenOf (x : PersonId) : t.childrenOf x = t₀.childrenOf x := by
  rw [Tree.childrenOf, relationsOf, h.relations, Tree.childrenOf, relationsOf]

theorem person?_of_full (hf : t₀.stateOf placeholder x = .full) : t.person? x = t₀.person? x := by
  rcases h.people x with he | ht
  · exact he
  · exact absurd hf ht.not_full

theorem full_of_full (hf : t₀.stateOf placeholder x = .full) : t.stateOf placeholder x = .full :=
  (stateOf_congr (h.person?_of_full hf)).trans hf

theorem person?_of_not_full (hn : t.stateOf placeholder x ≠ .full) : t.person? x = t₀.person? x := by
  rcases h.people x with he | ht
  · exact he
  · exact absurd ht.full hn

theorem isSome_person? : (t.person? x).isSome = (t₀.person? x).isSome := by
  rcases h.people x with he | ⟨r, c, hr, -, -, hx⟩
  · rw [he]
  · rw [hr, hx, Option.isSome_some, Option.isSome_some]

theorem taken_over (hn : t₀.stateOf placeholder x ≠ .full) (hf : t.stateOf placeholder x = .full) :
    t₀.TakenOver t placeholder x := by
  rcases h.people x with he | ht
  · rw [stateOf_congr he] at hf
    exact absurd hf hn
  · exact ht

/-- What is inherited now was inherited before: whoever became full on the way passes on what it took
over itself. -/
theorem inherits_before (hi : t.Inherits placeholder x c) : t₀.Inherits placeholder x c := by
  obtain ⟨k, a, ha, hc⟩ := hi
  have hway : ∀ j b, 0 < j → j < k → t₀.ancestor? j x = some b →
      t₀.stateOf placeholder b ≠ .full := by
    intro j b hj hjk hb hf
    rw [← ancestor?_congr h.parentOf] at hb
    exact ha.first j b hj hjk hb (h.full_of_full hf)
  have hreach : t₀.ancestor? k x = some a := (ancestor?_congr h.parentOf k x).symm.trans ha.reached
  -- Either `a` was full before, or it took its login over from further up.
  by_cases hf : t₀.stateOf placeholder a = .full
  · have hca : t₀.credentialsOf a = some c :=
      (credentialsOf_congr (h.person?_of_full hf)).symm.trans hc
    exact ⟨k, a, ⟨ha.pos, hreach, hf, hway⟩, hca⟩
  · obtain ⟨c', ⟨m, b, hb, hcb⟩, hc'⟩ := (h.taken_over hf ha.holds).credentials
    cases hc.symm.trans hc'
    refine ⟨k + m, b, FirstAbove.of_above hreach ?_ hb, hcb⟩
    intro i y hi hik hy
    rcases Nat.lt_or_eq_of_le hik with hlt | rfl
    · exact hway i y hi hlt hy
    · cases hreach.symm.trans hy
      exact hf

theorem inherits_after (hi : t₀.Inherits placeholder x c) : t.Inherits placeholder x c := by
  obtain ⟨k, a, ha, -⟩ := id hi
  have hreach : t.ancestor? k x = some a := (ancestor?_congr h.parentOf k x).trans ha.reached
  obtain ⟨m, b, -, hb⟩ := FirstAbove.exists_of_ancestor (P := (t.stateOf placeholder · = .full))
    ha.pos hreach (h.full_of_full ha.holds)
  obtain ⟨c', -, hi'⟩ := hb.exists_inherits
  cases (h.inherits_before hi').unique hi
  exact hi'

theorem trans (h' : t.Contained t' placeholder) : t₀.Contained t' placeholder := by
  refine ⟨h'.relations.trans h.relations, fun x => ?_⟩
  rcases h'.people x with he | ⟨r, c, hr, hn, hi, hx⟩
  · rcases h.people x with he₀ | ⟨r, c, hr, hn, hi, hx⟩
    · exact .inl (he.trans he₀)
    · exact .inr ⟨r, c, hr, hn, hi, he.trans hx⟩
  · have hp : t.person? x = t₀.person? x := h.person?_of_not_full hn
    rw [stateOf_congr hp] at hn
    exact .inr ⟨r, c, hp.symm.trans hr, hn, h.inherits_before hi, hx⟩

/-- The people who are full determine all the logins. -/
theorem person?_eq (h' : t₀.Contained t' placeholder)
    (hfull : t'.stateOf placeholder x = .full ↔ t.stateOf placeholder x = .full) :
    t'.person? x = t.person? x := by
  by_cases hx : t.stateOf placeholder x = .full
  · by_cases hx₀ : t₀.stateOf placeholder x = .full
    · rw [h.person?_of_full hx₀, h'.person?_of_full hx₀]
    · obtain ⟨r, c, hr, -, hi, ht⟩ := h.taken_over hx₀ hx
      obtain ⟨r', c', hr', -, hi', ht'⟩ := h'.taken_over hx₀ (hfull.mpr hx)
      cases hr.symm.trans hr'
      cases hi.unique hi'
      rw [ht, ht']
  · rw [h.person?_of_not_full hx, h'.person?_of_not_full (mt hfull.mp hx)]

/-- A guarded write of inherited logins keeps the tree contained. -/
theorem write {ids : List PersonId} {g : WriteGuard} (hg : g.placeholder = placeholder)
    (hi : ∀ x ∈ t.writable ids g, t₀.Inherits placeholder x c) :
    t₀.Contained (t.write ids c g).2 placeholder := by
  refine ⟨by rw [relations_write, h.relations], fun x => ?_⟩
  by_cases hx : x ∈ t.writable ids g
  · obtain ⟨-, r, hr, hn⟩ := person_of_writable hx
    rw [hg] at hn
    have hp : t.person? x = t₀.person? x := h.person?_of_not_full hn
    rw [stateOf_congr hp] at hn
    exact .inr ⟨r, c, hp.symm.trans hr, hn, hi x hx, person?_write_of_writable hr hx⟩
  · have hsame := person?_write_of_not_writable (c := c) hx
    rw [hsame]
    exact (h.people x).imp_right fun ⟨r, c, hr, hn, hi, hx'⟩ =>
      ⟨r, c, hr, hn, hi, hsame.trans hx'⟩

/-! ### Counting -/

/-- The people whose login has changed are those who became full. -/
theorem loginChanged_iff : t₀.LoginChanged t x ↔
    t₀.stateOf placeholder x ≠ .full ∧ t.stateOf placeholder x = .full := by
  constructor
  · intro hh
    obtain ⟨r, hr, hd⟩ := hh
    rcases h.people x with he | ht
    · have := hd r (he.symm.trans hr)
      simp at this
    · exact ⟨ht.not_full, ht.full⟩
  · intro hh
    obtain ⟨hn, hf⟩ := hh
    obtain ⟨r, c, hr, -, hi, hx⟩ := h.taken_over hn hf
    refine ⟨r.holding c, hx, fun r₀ hr₀ => ?_⟩
    cases hr.symm.trans hr₀
    by_contra hsame
    push Not at hsame
    refine hn (stateOf_full_iff.mpr ⟨c, ?_, hi.password_ne⟩)
    rw [credentialsOf_of_person hr, PersonAttributes.credentials?, hsame.1, hsame.2]
    rfl

/-- There are as many more full people as logins have changed. -/
theorem length_fullList : (t.fullList placeholder).length =
    (t₀.fullList placeholder).length + (t₀.loginChanges t).length := by
  have hn : (t₀.fullList placeholder ++ (t₀.loginChanges t).map (·.id)).Nodup := by
    refine (nodup_fullList t₀ placeholder).append (nodup_loginChanges t₀ t) fun x hx hx' => ?_
    exact (h.loginChanged_iff.mp (mem_loginChanges.mp hx')).1 (mem_fullList.mp hx)
  have hperm : (t.fullList placeholder).Perm
      (t₀.fullList placeholder ++ (t₀.loginChanges t).map (·.id)) := by
    refine (List.perm_ext_iff_of_nodup (nodup_fullList t placeholder) hn).mpr fun x => ?_
    rw [List.mem_append, mem_fullList, mem_fullList, mem_loginChanges, h.loginChanged_iff]
    constructor
    · intro hf
      by_cases hx : t₀.stateOf placeholder x = .full
      · exact .inl hx
      · exact .inr ⟨hx, hf⟩
    · exact fun hx => hx.elim h.full_of_full And.right
  rw [hperm.length_eq, List.length_append, List.length_map]

/-- Each guarded write changes the people whom it reaches, and these for the first time. -/
theorem length_loginChanges_write {ids : List PersonId} {g : WriteGuard}
    (hg : g.placeholder = placeholder)
    (hi : ∀ x ∈ t.writable ids g, t₀.Inherits placeholder x c) :
    (t₀.loginChanges (t.write ids c g).2).length =
      (t₀.loginChanges t).length + (t.writable ids g).length := by
  have hw := h.write hg hi
  -- Those who had changed before are full, and the guard keeps them out of the write.
  have hn : ((t₀.loginChanges t).map (·.id) ++ t.writable ids g).Nodup := by
    refine (nodup_loginChanges t₀ t).append (t.nodup_writable ids g) fun x hx hx' => ?_
    have hf := (h.loginChanged_iff.mp (mem_loginChanges.mp hx)).2
    have := (person_of_writable hx').2
    rw [hg] at this
    obtain ⟨-, -, hnf⟩ := this
    exact hnf hf
  rw [length_loginChanges hn, List.length_append, List.length_map]
  intro x
  rw [List.mem_append, mem_loginChanges, h.loginChanged_iff, hw.loginChanged_iff]
  by_cases hx : x ∈ t.writable ids g
  · obtain ⟨-, r, hr, hnf⟩ := person_of_writable hx
    rw [hg] at hnf
    have hp : t.person? x = t₀.person? x := h.person?_of_not_full hnf
    refine iff_of_true (.inr hx) ⟨by rwa [stateOf_congr hp] at hnf, ?_⟩
    rw [← hg]
    exact full_write_of_writable hx (by rw [hg]; exact (hi x hx).password_ne)
  · rw [stateOf_congr (person?_write_of_not_writable hx)]
    exact or_iff_left hx

end Contained

end Downline.Tree
