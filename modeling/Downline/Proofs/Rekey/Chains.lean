import Downline.Proofs.Forest
import Downline.Proofs.Rekey.Plan

/-! Chains in a forest. Discovery has a candidate exactly where a child of a full person holds the
placeholder, and one of its candidates leads through each such child. -/

namespace Downline.Tree

variable {t : Tree} {placeholder : String} {maxDepth depth : UInt32} {H : Nat}
  {x y z a start last : PersonId} {candidates : List ChainCandidate}

theorem passwordOf_of_leads (h : t.Leads placeholder maxDepth x 1 last) :
    t.passwordOf x = some placeholder := by
  cases h with
  | ends hv =>
    obtain ⟨-, ⟨hp, -⟩ | ⟨-, hlt⟩⟩ := visit_eq_ends_iff.mp hv
    · exact hp
    · exact absurd hlt (UInt32.lt_irrefl 1)
  | goesOn hv => exact (visit_eq_goesOn_iff.mp hv).2.1

namespace WellFormed

variable (hw : t.WellFormed) (hH : t.HeightAtMost H) (hd : H ≤ maxDepth.toNat)
include hw

/-- Every candidate starts at a full person with a child that holds the placeholder. -/
theorem of_mem_rekeyCandidates (hc : t.rekeyCandidates placeholder maxDepth = .ok candidates)
    {c : ChainCandidate} (hm : c ∈ candidates) : t.stateOf placeholder c.start = .full ∧
      ∃ x, t.parentOf x = some c.start ∧ t.passwordOf x = some placeholder := by
  obtain ⟨hf, x, hx, hl⟩ := (mem_rekeyCandidates hc).mp hm
  exact ⟨hf, x, (hw.mirrored _ x).mp hx, passwordOf_of_leads hl⟩

include hH hd

/-- From a holder of the placeholder with a child the search goes on to that child. -/
theorem visit_of_child (hy : t.ancestor? depth.toNat y = some start)
    (hp : t.passwordOf y = some placeholder) (hz : t.parentOf z = some y) :
    t.visit placeholder maxDepth y depth = .goesOn (t.childrenOf y) ∧
      (depth + 1).toNat = depth.toNat + 1 ∧ t.ancestor? (depth + 1).toNat z = some start := by
  have hzc : z ∈ t.childrenOf y := (hw.mirrored y z).mpr hz
  have hz' : t.ancestor? (depth.toNat + 1) z = some start := (ancestor?_of_parent hz _).trans hy
  have hle : depth ≤ maxDepth := UInt32.le_iff_toNat_le.mpr (Nat.le_trans (hH.le hy) hd)
  have hsucc := toNat_succ (hH.depth_ne hd hz')
  refine ⟨visit_eq_goesOn_iff.mpr ⟨hle, hp, rfl, List.ne_nil_of_mem hzc⟩, hsucc, ?_⟩
  rw [hsucc, hz']

/-- From a holder of the placeholder the search goes on down, over holders only, to some end. -/
theorem exists_leads (hy : t.ancestor? depth.toNat y = some start) (hpos : 1 ≤ depth.toNat)
    (hp : t.passwordOf y = some placeholder) :
    ∃ last i, t.Leads placeholder maxDepth y depth last ∧ t.ancestor? i last = some y ∧
      (∀ j x, 0 < j → j ≤ i → t.ancestor? j last = some x → t.passwordOf x = some placeholder) ∧
      (0 < i ∨ t.passwordOf last = some placeholder) := by
  -- The height that is left below `y` shrinks with every step down.
  induction hn : H - depth.toNat using Nat.strongRecOn generalizing y depth with
  | ind n ih =>
    have hle {z : PersonId} {d : UInt32} (hz : t.ancestor? d.toNat z = some start) : d ≤ maxDepth :=
      UInt32.le_iff_toNat_le.mpr (Nat.le_trans (hH.le hz) hd)
    cases hch : t.childrenOf y with
    | nil =>
      exact ⟨y, 0, .ends (visit_eq_ends_iff.mpr ⟨hle hy, .inl ⟨hp, hch⟩⟩), rfl, by omega, .inr hp⟩
    | cons z rest =>
      have hzc : z ∈ t.childrenOf y := by rw [hch]; exact List.mem_cons_self
      have hzp : t.parentOf z = some y := (hw.mirrored y z).mp hzc
      obtain ⟨hgo, hsucc, hz⟩ := hw.visit_of_child hH hd hy hp hzp
      by_cases hpz : t.passwordOf z = some placeholder
      · have hleft : H - (depth + 1).toNat < n := by
          have := hH.le hz
          omega
        obtain ⟨last, i, hl, hi, hway, hsome⟩ := ih _ hleft hz (by omega) hpz rfl
        refine ⟨last, i + 1, .goesOn hgo hzc hl, (ancestor?_succ_of_ancestor hi).trans hzp, ?_,
          .inl (Nat.succ_pos i)⟩
        intro j x hj hji hx
        rcases Nat.lt_or_eq_of_le hji with hlt | rfl
        · exact hway j x hj (Nat.le_of_lt_succ hlt) hx
        · rw [ancestor?_succ_of_ancestor hi, hzp] at hx
          cases hx
          exact hp
      · -- The child does not hold the placeholder, and the chain ends with it.
        have hdeep : 1 < depth + 1 := by
          rw [UInt32.lt_iff_toNat_lt, hsucc]
          exact Nat.lt_succ_of_le hpos
        have hends : t.visit placeholder maxDepth z (depth + 1) = .ends :=
          visit_eq_ends_iff.mpr ⟨hle hz, .inr ⟨hpz, hdeep⟩⟩
        refine ⟨z, 1, .goesOn hgo hzc (.ends hends), by rw [ancestor?_one, hzp], ?_,
          .inl Nat.one_pos⟩
        intro j x hj hj1 hx
        obtain rfl : j = 1 := by omega
        rw [ancestor?_one, hzp] at hx
        cases hx
        exact hp

/-- Through each child of a full person that holds the placeholder there is a candidate, and its chain is
open and within reach. -/
theorem exists_candidate (hc : t.rekeyCandidates placeholder maxDepth = .ok candidates)
    (hx : t.parentOf x = some a) (ha : t.stateOf placeholder a = .full)
    (hp : t.passwordOf x = some placeholder) : ∃ last k, ⟨a, last⟩ ∈ candidates ∧
      k ≤ maxDepth.toNat ∧ t.OpenChain placeholder a last k ∧
        t.ancestor? (k - 1) last = some x := by
  have hstart : t.ancestor? (1 : UInt32).toNat x = some a := (ancestor?_one x).trans hx
  obtain ⟨last, i, hl, hi, hway, hsome⟩ := hw.exists_leads hH hd hstart (Nat.le_refl 1) hp
  have hreach : t.ancestor? (i + 1) last = some a := (ancestor?_succ_of_ancestor hi).trans hx
  have hinterior : ∀ j y, 0 < j → j < i + 1 → t.ancestor? j last = some y →
      t.passwordOf y = some placeholder := fun j y hj hji => hway j y hj (Nat.le_of_lt_succ hji)
  refine ⟨last, i + 1, (mem_rekeyCandidates hc).mpr ⟨ha, x, (hw.mirrored a x).mpr hx, hl⟩,
    Nat.le_trans (hH.le hreach) hd, ⟨hw.isSome_of_ancestor (Nat.succ_pos i) hreach,
      ⟨Nat.succ_pos i, hreach, rfl, ?_⟩, ha, hinterior, hsome.imp_left Nat.succ_lt_succ⟩, hi⟩
  intro j b hj hji hb he
  subst he
  exact not_full_of_password (hinterior j b hj hji hb) ha

/-- There is no candidate where no child of a full person holds the placeholder. -/
theorem rekeyCandidates_eq_nil_iff
    (hc : t.rekeyCandidates placeholder maxDepth = .ok candidates) : candidates = [] ↔
      ∀ x a, t.parentOf x = some a → t.stateOf placeholder a = .full →
        t.passwordOf x ≠ some placeholder := by
  constructor
  · rintro rfl x a hx ha hp
    obtain ⟨last, k, hm, -⟩ := hw.exists_candidate hH hd hc hx ha hp
    exact absurd hm List.not_mem_nil
  · intro h
    refine List.eq_nil_iff_forall_not_mem.mpr fun c hm => ?_
    obtain ⟨hf, x, hx, hp⟩ := hw.of_mem_rekeyCandidates hc hm
    exact h x c.start hx hf hp

end WellFormed

end Downline.Tree
