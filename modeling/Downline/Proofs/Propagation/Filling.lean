import Downline.Proofs.Inheritance

/-! The way from a person up to its nearest full ancestor, and trees in which the people on such ways have
been filled in. -/

namespace Downline

namespace Tree

/-- On the way up to its nearest full ancestor `a`, at most `d` edges above it, `e` passes `x`. The way
begins with `e` itself. -/
def PassedBy (t : Tree) (placeholder : String) (d : Nat) (e x a : PersonId) : Prop :=
  ∃ j k, j < k ∧ k ≤ d ∧ t.NearestFull placeholder k e a ∧ t.ancestor? j e = some x

/-- Some empty person passes `x` on the way up to its nearest full ancestor `a`. -/
def OnTheWay (t : Tree) (placeholder : String) (d : Nat) (x a : PersonId) : Prop :=
  ∃ e, (t.person? e).isSome ∧ t.stateOf placeholder e = .empty ∧ t.PassedBy placeholder d e x a

/-- `D` is made up of upper ends of ways that begin with empty people. -/
structure Ways (t : Tree) (placeholder : String) (d : Nat) (D : PersonId → Prop) : Prop where
  passed : ∀ x, D x → ∃ a, t.OnTheWay placeholder d x a
  upward : ∀ x k a j z, D x → t.NearestFull placeholder k x a → j < k →
    t.ancestor? j x = some z → D z

/-- Whether one of the first `d` proper ancestors is full. -/
def meetsFull (t : Tree) (placeholder : String) (d : Nat) (id : PersonId) : Bool :=
  (List.range d).any fun j =>
    (t.ancestor? (j + 1) id).any fun a => t.stateOf placeholder a == .full

/-- The people of `D` who are not full in `t₀` have taken over the login from above, and nobody else
has; they are `n`. -/
structure Filled (t₀ : Tree) (placeholder : String) (D : PersonId → Prop) (n : Nat) (t : Tree) :
    Prop where
  contained : t₀.Contained t placeholder
  full_iff : ∀ x, t.stateOf placeholder x = .full ↔
    t₀.stateOf placeholder x = .full ∨ (t₀.person? x).isSome ∧ D x
  count : (t₀.loginChanges t).length = n

variable {t₀ t : Tree} {placeholder : String} {d n : Nat} {e x a : PersonId} {c : Credentials}
  {D D' : PersonId → Prop}

/-! ### The way up -/

theorem PassedBy.nearest (h : t.PassedBy placeholder d e x a) :
    ∃ k, t.NearestFull placeholder k x a := by
  obtain ⟨j, k, hjk, -, ha, hx⟩ := h
  exact ⟨k - j, ha.of_passed hx hjk⟩

theorem PassedBy.inherits (h : t.PassedBy placeholder d e x a) (hc : t.credentialsOf a = some c) :
    t.Inherits placeholder x c := by
  obtain ⟨k, ha⟩ := h.nearest
  exact ⟨k, a, ha, hc⟩

/-- Whoever passes `x` passes everyone on the way up from `x` as well. -/
theorem PassedBy.upward {j k : Nat} {z b : PersonId} (h : t.PassedBy placeholder d e x a)
    (hb : t.NearestFull placeholder k x b) (hjk : j < k) (hz : t.ancestor? j x = some z) :
    t.PassedBy placeholder d e z a := by
  obtain ⟨i, m, him, hm, ha, hx⟩ := h
  obtain ⟨rfl, -⟩ := hb.unique (ha.of_passed hx him)
  exact ⟨i + j, m, by omega, hm, ha, by rw [ancestor?_add, hx, Option.bind_some, hz]⟩

/-- Nobody on the way is full, if the origin is not. -/
theorem PassedBy.not_full (h : t.PassedBy placeholder d e x a)
    (he : t.stateOf placeholder e ≠ .full) : t.stateOf placeholder x ≠ .full := by
  obtain ⟨j, k, hjk, -, ha, hx⟩ := h
  rcases Nat.eq_zero_or_pos j with rfl | hj
  · cases hx
    exact he
  · exact ha.first j x hj hjk hx

/-- Nobody on the way up from an empty person is full. -/
theorem OnTheWay.not_full (h : t.OnTheWay placeholder d x a) : t.stateOf placeholder x ≠ .full := by
  obtain ⟨e, -, he, hpass⟩ := h
  exact hpass.not_full (by rw [he]; exact nofun)

theorem Ways.none (t : Tree) (placeholder : String) (d : Nat) :
    t.Ways placeholder d fun _ => False :=
  ⟨nofun, nofun⟩

theorem Ways.or (h : t.Ways placeholder d D) (h' : t.Ways placeholder d D') :
    t.Ways placeholder d fun x => D x ∨ D' x where
  passed x hx := hx.elim (h.passed x) (h'.passed x)
  upward x k a j z hx ha hjk hz :=
    hx.imp (fun hx => h.upward x k a j z hx ha hjk hz) fun hx => h'.upward x k a j z hx ha hjk hz

/-- Nobody on such a way was full. -/
theorem Ways.not_full (h : t.Ways placeholder d D) (hx : D x) : t.stateOf placeholder x ≠ .full := by
  obtain ⟨a, hway⟩ := h.passed x hx
  exact hway.not_full

theorem meetsFull_iff :
    t.meetsFull placeholder d e = true ↔ ∃ k a, k ≤ d ∧ t.NearestFull placeholder k e a := by
  simp only [meetsFull, List.any_eq_true, List.mem_range, Option.any_eq_true, beq_iff_eq]
  constructor
  · intro h
    obtain ⟨j, hj, a, ha, hf⟩ := h
    obtain ⟨k, b, hk, hb⟩ := FirstAbove.exists_of_ancestor
      (P := (t.stateOf placeholder · = .full)) (Nat.succ_pos j) ha hf
    exact ⟨k, b, by omega, hb⟩
  · intro h
    obtain ⟨k, a, hk, ha⟩ := h
    have hpos := ha.pos
    exact ⟨k - 1, by omega, a, by rw [Nat.sub_add_cancel hpos]; exact ha.reached, ha.holds⟩

theorem upwardPath?_fullIds {maxDepth : UInt32} {path : UpwardPath} :
    t.upwardPath? (t.fullIds placeholder) maxDepth e = some path ↔
      (t.person? e).isSome ∧ ∃ k, k ≤ maxDepth.toNat ∧
        t.NearestFull placeholder k e path.terminator ∧
        t.credentialsOf path.terminator = some path.credentials ∧
        path.origin = e ∧ path.walked = t.walk k e := by
  have hP : (· ∈ t.fullIds placeholder) = (t.stateOf placeholder · = .full) :=
    funext fun _ => propext mem_fullIds
  rw [upwardPath?_eq_some_iff, hP]

theorem isSome_upwardPath? {maxDepth : UInt32} (he : (t.person? e).isSome) :
    (t.upwardPath? (t.fullIds placeholder) maxDepth e).isSome =
      t.meetsFull placeholder maxDepth.toNat e := by
  rw [Bool.eq_iff_iff, meetsFull_iff, Option.isSome_iff_exists]
  constructor
  · intro h
    obtain ⟨path, hpath⟩ := h
    obtain ⟨-, k, hk, ha, -⟩ := upwardPath?_fullIds.mp hpath
    exact ⟨k, _, hk, ha⟩
  · intro hh
    obtain ⟨k, a, hk, ha⟩ := hh
    obtain ⟨c, hc, -⟩ := ha.exists_inherits
    exact ⟨⟨e, t.walk k e, a, c⟩, upwardPath?_fullIds.mpr ⟨he, k, hk, ha, hc, rfl, rfl⟩⟩

theorem Contained.upwardPath?_eq (h : t₀.Contained t placeholder) (maxDepth : UInt32)
    (e : PersonId) : t.upwardPath? (t₀.fullIds placeholder) maxDepth e =
      t₀.upwardPath? (t₀.fullIds placeholder) maxDepth e := by
  have hwalk (k : Nat) (id : PersonId) : t.walk k id = t₀.walk k id := by
    induction k generalizing id with
    | zero => rfl
    | succ k ih => rw [walk, walk, h.parentOf, funext ih]
  ext path
  rw [upwardPath?_eq_some_iff, upwardPath?_eq_some_iff, h.isSome_person?]
  refine and_congr_right fun _ => exists_congr fun k => and_congr_right fun _ => ?_
  have hfirst : t.FirstAbove (· ∈ t₀.fullIds placeholder) k e path.terminator ↔
      t₀.FirstAbove (· ∈ t₀.fullIds placeholder) k e path.terminator :=
    ⟨fun hf => hf.congr (fun x => (h.parentOf x).symm) fun _ _ _ _ _ => Iff.rfl,
      fun hf => hf.congr h.parentOf fun _ _ _ _ _ => Iff.rfl⟩
  rw [hfirst, hwalk]
  refine and_congr_right fun hf => ?_
  rw [credentialsOf_congr (h.person?_of_full (mem_fullIds.mp hf.holds))]

/-- Whoever has become full on a way holds the login of the full person at the end of it. -/
theorem Contained.person?_of_passed {r : PersonRecord} (h : t₀.Contained t placeholder)
    (hpass : t₀.PassedBy placeholder d e x a) (hn : t₀.stateOf placeholder x ≠ .full)
    (hf : t.stateOf placeholder x = .full) (hr : t₀.person? x = some r)
    (hc : t₀.credentialsOf a = some c) : t.person? x = some (r.holding c) := by
  obtain ⟨r', c', hr', -, hi, hx⟩ := h.taken_over hn hf
  cases hr.symm.trans hr'
  cases hi.unique (hpass.inherits hc)
  exact hx

/-! ### Filling people in -/

namespace Filled

theorem start (t : Tree) (placeholder : String) :
    t.Filled placeholder (fun _ => False) 0 t where
  contained := .refl t placeholder
  full_iff := by simp
  count := length_loginChanges_self t

theorem congr (h : t₀.Filled placeholder D n t) (hD : ∀ x, D x ↔ D' x) :
    t₀.Filled placeholder D' n t := by
  rwa [show D' = D from (funext fun x => propext (hD x)).symm]

/-- A write to people who are not full fills in those whom it lists. -/
theorem write {ids : List PersonId} (h : t₀.Filled placeholder D n t)
    (hi : ∀ x ∈ ids, t₀.Inherits placeholder x c) :
    t₀.Filled placeholder (fun x => D x ∨ x ∈ ids)
      (n + (t.write ids c (.notFull placeholder)).1)
      (t.write ids c (.notFull placeholder)).2 := by
  have hi' : ∀ x ∈ t.writable ids (.notFull placeholder), t₀.Inherits placeholder x c :=
    fun x hx => hi x (t.mem_writable.mp hx).1
  refine ⟨h.contained.write rfl hi', fun x => ?_, ?_⟩
  · by_cases hx : x ∈ t.writable ids (.notFull placeholder)
    · obtain ⟨hids, r, hr, -⟩ := person_of_writable hx
      refine iff_of_true (full_write_of_writable hx (hi x hids).password_ne) (.inr ⟨?_, .inr hids⟩)
      rw [← h.contained.isSome_person?, hr, Option.isSome_some]
    · rw [stateOf_congr (person?_write_of_not_writable hx), h.full_iff]
      constructor
      · exact Or.imp_right fun ⟨hp, hD⟩ => ⟨hp, .inl hD⟩
      · intro hh
        rcases hh with hf | ⟨hp, hD | hids⟩
        · exact .inl hf
        · exact .inr ⟨hp, hD⟩
        · -- A listed person who is not reached is full already.
          rw [← h.full_iff]
          by_contra hn
          exact hx (writable_notFull.mpr ⟨hids, by rwa [h.contained.isSome_person?], hn⟩)
  · rw [h.contained.length_loginChanges_write rfl hi', h.count, fst_write]

end Filled

/-- Two full people with an empty person below each of them, one of them a child and one a grandchild: what
the two hand down is written in two parts. -/
def neighbours : Tree :=
  let people : List PersonRecord := [
    { id := ⟨"r1"⟩, attributes := { username := some "user-r1", password := some "pw-r1" } },
    { id := ⟨"r2"⟩, attributes := { username := some "user-r2", password := some "pw-r2" } },
    { id := ⟨"a"⟩ },
    { id := ⟨"b"⟩ },
    { id := ⟨"mid"⟩, attributes := { username := some "mid", password := some "changeme" } }]
  (((people.foldl insert default).attach ⟨"r1"⟩ ⟨"a"⟩ .left).attach ⟨"r2"⟩ ⟨"mid"⟩ .left).attach
    ⟨"mid"⟩ ⟨"b"⟩ .left

end Tree

end Downline
