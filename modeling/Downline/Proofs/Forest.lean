import Downline.Proofs.Ancestry
import Downline.Proofs.Discovery

/-! Trees whose relations form a forest. Every walk up ends there, and discovery never runs over its depth
counter. -/

namespace Downline.Tree

/-- The relations form a forest of people: a child stands in exactly one slot of its parent and in no
other, and nobody is above itself. -/
structure WellFormed (t : Tree) : Prop where
  mirrored : ∀ p c, c ∈ t.childrenOf p ↔ t.parentOf c = some p
  once : ∀ p, (t.childrenOf p).Nodup
  /-- Whoever is related is a person. -/
  people : ∀ id, id ∈ t.relations → (t.person? id).isSome
  acyclic : ∀ k x, 0 < k → t.ancestor? k x ≠ some x

/-- Nobody has more than `H` edges above it. -/
def HeightAtMost (t : Tree) (H : Nat) : Prop := ∀ x, t.ancestor? (H + 1) x = none

variable {t : Tree} {placeholder : String} {maxDepth depth : UInt32} {H k : Nat}
  {x y p a start : PersonId}

/-- Whoever has a parent or a child is related. -/
theorem mem_relations_of_ne (h : t.relationsOf x ≠ {}) : x ∈ t.relations := by
  rw [Std.TreeMap.mem_iff_isSome_getElem?]
  cases hx : t.relations[x]? with
  | some r => rfl
  | none => exact absurd (by rw [relationsOf, hx]; rfl) h

theorem mem_relations_of_parent (h : t.parentOf x = some p) : x ∈ t.relations := by
  refine mem_relations_of_ne fun he => ?_
  rw [parentOf, he] at h
  cases h

theorem mem_relations_of_child (h : x ∈ t.childrenOf p) : p ∈ t.relations := by
  refine mem_relations_of_ne fun he => ?_
  rw [childrenOf, he] at h
  cases h

theorem HeightAtMost.le (h : t.HeightAtMost H) (ha : t.ancestor? k x = some a) : k ≤ H := by
  by_contra hk
  obtain ⟨b, hb⟩ := ancestor?_of_le ha (Nat.lt_of_not_le hk)
  rw [h x] at hb
  cases hb

/-- Where every walk up ends, nobody is above itself. -/
theorem HeightAtMost.acyclic (h : t.HeightAtMost H) (hk : 0 < k) : t.ancestor? k x ≠ some x := by
  intro hx
  have hagain : ∀ n, t.ancestor? (n * k) x = some x := by
    intro n
    induction n with
    | zero => rw [Nat.zero_mul, ancestor?_zero]
    | succ n ih => rw [Nat.succ_mul, ancestor?_add, ih, Option.bind_some, hx]
  have hle := h.le (hagain (H + 1))
  have hmul := Nat.le_mul_of_pos_right (H + 1) hk
  omega

/-- A depth that leaves room for one more edge is not the last that a word can hold. -/
theorem HeightAtMost.depth_ne (h : t.HeightAtMost H) (hd : H ≤ maxDepth.toNat)
    (ha : t.ancestor? (depth.toNat + 1) x = some a) : depth ≠ 4294967295 := by
  intro he
  have hle := h.le ha
  have hlt := maxDepth.toNat_lt
  have hlast : depth.toNat = 4294967295 := by rw [he]; rfl
  omega

namespace WellFormed

theorem isSome_of_parent (h : t.WellFormed) (hp : t.parentOf x = some p) :
    (t.person? x).isSome ∧ (t.person? p).isSome :=
  ⟨h.people x (mem_relations_of_parent hp),
    h.people p (mem_relations_of_child ((h.mirrored p x).mpr hp))⟩

theorem isSome_of_ancestor (h : t.WellFormed) (hk : 0 < k) (ha : t.ancestor? k x = some a) :
    (t.person? x).isSome := by
  obtain ⟨m, rfl⟩ : ∃ m, k = m + 1 := ⟨k - 1, by omega⟩
  obtain ⟨p, hp, -⟩ := Option.bind_eq_some_iff.mp ha
  exact (h.isSome_of_parent hp).1

end WellFormed

/-! ### Heights -/

/-- Where nobody is above itself, no walk up is longer than there are ids with a parent. -/
theorem HeightAtMost.of_acyclic {l : List PersonId}
    (hacyclic : ∀ k x, 0 < k → t.ancestor? k x ≠ some x)
    (hl : ∀ x p, t.parentOf x = some p → x ∈ l) : t.HeightAtMost l.length := by
  intro x
  cases ha : t.ancestor? (l.length + 1) x with
  | none => rfl
  | some a =>
    exfalso
    have hnodup : (t.walk (l.length + 1) x).Nodup :=
      nodup_walk_of_no_return fun _ j y _ hj _ => hacyclic j y hj
    have hsub : t.walk (l.length + 1) x ⊆ l := by
      intro y hy
      obtain ⟨j, hj, hx⟩ := mem_walk.mp hy
      obtain ⟨b, hb⟩ := ancestor?_of_le ha hj
      rw [ancestor?_succ_of_ancestor hx] at hb
      exact hl y b hb
    have hle := (List.subperm_of_subset hnodup hsub).length_le
    rw [length_walk ha] at hle
    omega

/-- A forest has a height: there are no more people on a walk up than people. -/
theorem WellFormed.exists_height (h : t.WellFormed) : ∃ H, t.HeightAtMost H := by
  refine ⟨t.people.keys.length, .of_acyclic h.acyclic fun x p hp => ?_⟩
  exact Std.TreeMap.mem_keys.mpr
    (Std.TreeMap.mem_iff_isSome_getElem?.mpr (h.isSome_of_parent hp).1)

/-! ### Forests at hand -/

/-- The height of a tree can be read off the related ids. -/
theorem HeightAtMost.of_keys (h : ∀ x ∈ t.relations.keys, t.ancestor? (H + 1) x = none) :
    t.HeightAtMost H := by
  intro x
  cases hx : t.parentOf x with
  | none => rw [ancestor?_succ, hx, Option.bind_none]
  | some p => exact h x (Std.TreeMap.mem_keys.mpr (mem_relations_of_parent hx))

/-- Whether a tree is a forest can be read off the related ids. -/
theorem WellFormed.of_keys (hH : t.HeightAtMost H)
    (h : ∀ x ∈ t.relations.keys, (t.person? x).isSome ∧ (t.childrenOf x).Nodup ∧
      (∀ c ∈ t.childrenOf x, t.parentOf c = some x) ∧ ∀ p ∈ t.parentOf x, x ∈ t.childrenOf p) :
    t.WellFormed where
  mirrored p c := by
    constructor
    · intro hc
      exact (h p (Std.TreeMap.mem_keys.mpr (mem_relations_of_child hc))).2.2.1 c hc
    · intro hp
      exact (h c (Std.TreeMap.mem_keys.mpr (mem_relations_of_parent hp))).2.2.2 p hp
  once p := by
    by_cases hp : p ∈ t.relations
    · exact (h p (Std.TreeMap.mem_keys.mpr hp)).2.1
    · rw [List.eq_nil_iff_forall_not_mem.mpr fun c hc => hp (mem_relations_of_child hc)]
      exact List.nodup_nil
  people id hid := (h id (Std.TreeMap.mem_keys.mpr hid)).1
  acyclic k x hk := hH.acyclic hk

theorem heightAtMost_household : household.HeightAtMost 2 := .of_keys (by decide +kernel)

theorem wellFormed_household : household.WellFormed :=
  .of_keys heightAtMost_household (by decide +kernel)

/-! ### Discovery in a forest -/

/-- In a forest that is no higher than the depth bound, discovery succeeds. -/
theorem WellFormed.exists_rekeyCandidates (h : t.WellFormed) (hH : t.HeightAtMost H)
    (hd : H ≤ maxDepth.toNat) (placeholder : String) :
    ∃ candidates, t.rekeyCandidates placeholder maxDepth = .ok candidates := by
  refine Tree.exists_rekeyCandidates
    (P := fun start id depth => t.ancestor? depth.toNat id = some start) ?_ ?_
  · intro start id depth children hid hv
    obtain ⟨hle, -, rfl, hne⟩ := visit_eq_goesOn_iff.mp hv
    have hbelow : ∀ c ∈ t.childrenOf id, t.ancestor? (depth.toNat + 1) c = some start :=
      fun c hc => (ancestor?_of_parent ((h.mirrored id c).mp hc) _).trans hid
    obtain ⟨c₀, hc₀⟩ := List.exists_mem_of_ne_nil _ hne
    have hdepth := hH.depth_ne hd (hbelow c₀ hc₀)
    refine ⟨hdepth, fun c hc => ?_⟩
    rw [toNat_succ hdepth]
    exact hbelow c hc
  · intro start hs x hx
    have hone : (1 : UInt32).toNat = 1 := rfl
    rw [hone, ancestor?_one]
    exact (h.mirrored start x).mp hx

end Downline.Tree
