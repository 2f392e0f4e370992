import Downline.Proofs.Inheritance
import Downline.Rekey.Plan

/-! Which paths re-keying accepts and what it plans for them, first for any list of nodes and then for the
path down to a person of a tree. -/

namespace Downline

variable {placeholder : String}

/-! ### Plans for a list of nodes -/

/-- The plan for the path from `start` over `mid` to `last`: the start is full, all of `mid` hold the
placeholder, and somebody behind the start holds it. -/
@[mk_iff]
structure RekeyPlan.Fits (plan : RekeyPlan) (placeholder : String) (start : PathNode)
    (mid : List PathNode) (last : PathNode) : Prop where
  full : start.state placeholder = .full
  credentials : start.credentials? = some plan.credentials
  interior : ∀ n ∈ mid, n.holdsPlaceholder placeholder = true
  some_target : mid ≠ [] ∨ last.holdsPlaceholder placeholder = true
  targets : plan.targets =
    mid.map (·.id) ++ if last.holdsPlaceholder placeholder then [last.id] else []
  /-- The end is written apart if it is empty and does not hold the placeholder. -/
  emptyEnd : plan.emptyEnd =
    if last.holdsPlaceholder placeholder then none
    else if last.state placeholder = .empty then some last.id else none

theorem RekeyPlan.exists_fits {start last : PathNode} {mid : List PathNode} {c : Credentials}
    (hs : start.state placeholder = .full) (hc : start.credentials? = some c)
    (hm : ∀ n ∈ mid, n.holdsPlaceholder placeholder = true)
    (ht : mid ≠ [] ∨ last.holdsPlaceholder placeholder = true) :
    ∃ plan : RekeyPlan, plan.Fits placeholder start mid last :=
  ⟨⟨c, _, _⟩, hs, hc, hm, ht, rfl, rfl⟩

theorem planRekey_cons_eq_ok_iff {start last : PathNode} {mid : List PathNode} {plan : RekeyPlan} :
    planRekey (start :: (mid ++ [last])) placeholder = .ok plan ↔
      plan.Fits placeholder start mid last := by
  obtain ⟨next, below, hsplit⟩ := List.exists_cons_of_ne_nil (List.concat_ne_nil last mid)
  have hinterior : (next :: below).dropLast = mid := by rw [← hsplit, List.dropLast_concat]
  have hlast : (next :: below).getLast (List.cons_ne_nil next below) = last := by
    simp only [← hsplit, List.getLast_append_singleton]
  rw [RekeyPlan.fits_iff, hsplit]
  simp only [planRekey, hinterior, hlast]
  obtain ⟨c', targets, emptyEnd⟩ := plan
  -- The four reasons to refuse a path, one after another.
  by_cases hs : start.state placeholder = .full
  · cases hc : start.credentials? with
    | none => simp [hs]
    | some c =>
      by_cases hm : mid.all (·.holdsPlaceholder placeholder) = true
      · have hm' := List.all_eq_true.mp hm
        cases hl : last.holdsPlaceholder placeholder with
        | true => simp [hs, hm]; grind
        | false => cases mid <;> simp [hs, hm]; grind
      · have hm' := mt List.all_eq_true.mpr hm
        simp only [Bool.not_eq_true] at hm
        simp [hs, hm, hm']
  · simp [hs]

theorem planRekey_eq_ok_iff {path : List PathNode} {plan : RekeyPlan} :
    planRekey path placeholder = .ok plan ↔
      ∃ start mid last, path = start :: (mid ++ [last]) ∧ plan.Fits placeholder start mid last := by
  constructor
  · intro h
    match path with
    | [] => cases h
    | [_] => cases h
    | start :: next :: below =>
      have hsplit := (List.dropLast_append_getLast (List.cons_ne_nil next below)).symm
      rw [hsplit] at h
      exact ⟨_, _, _, congrArg _ hsplit, planRekey_cons_eq_ok_iff.mp h⟩
  · intro hh
    obtain ⟨start, mid, last, rfl, h⟩ := hh
    exact planRekey_cons_eq_ok_iff.mpr h

namespace Tree

variable {t : Tree} {start last x : PersonId} {k : Nat} {maxDepth : UInt32} {path : List PathNode}
  {plan : RekeyPlan}

theorem state_pathNode (t : Tree) (placeholder : String) (x : PersonId) :
    (t.pathNode x).state placeholder = t.stateOf placeholder x := by
  unfold pathNode PathNode.state stateOf
  cases t.person? x <;> rfl

theorem credentials_pathNode (t : Tree) (x : PersonId) :
    (t.pathNode x).credentials? = t.credentialsOf x := by
  unfold pathNode PathNode.credentials? credentialsOf
  cases t.person? x <;> rfl

theorem holdsPlaceholder_pathNode :
    (t.pathNode x).holdsPlaceholder placeholder = true ↔ t.passwordOf x = some placeholder := by
  rw [PathNode.holdsPlaceholder, beq_iff_eq, pathNode, passwordOf]

/-! ### Plans for a path of the tree -/

/-- The way from a full start down to a person, `k` edges below: everyone in between holds the
placeholder, and somebody below the start does. -/
structure OpenChain (t : Tree) (placeholder : String) (start last : PersonId) (k : Nat) : Prop where
  isSome : (t.person? last).isSome
  first : t.FirstAbove (· = start) k last start
  full : t.stateOf placeholder start = .full
  interior : ∀ j x, 0 < j → j < k → t.ancestor? j last = some x →
    t.passwordOf x = some placeholder
  some_target : 1 < k ∨ t.passwordOf last = some placeholder

/-- What a plan for the path down from `start` to `last`, `k` edges below, has to do with the tree. -/
structure Planned (t : Tree) (placeholder : String) (start last : PersonId) (k : Nat)
    (plan : RekeyPlan) : Prop extends OpenChain t placeholder start last k where
  credentials : t.credentialsOf start = some plan.credentials
  /-- The targets are the placeholder holders below the start. -/
  mem_targets : ∀ x, x ∈ plan.targets ↔
    ∃ j, j < k ∧ t.ancestor? j last = some x ∧ t.passwordOf x = some placeholder
  /-- The end is written apart if it is empty and does not hold the placeholder. -/
  emptyEnd : ∀ x, plan.emptyEnd = some x ↔
    x = last ∧ t.passwordOf last ≠ some placeholder ∧ t.stateOf placeholder last = .empty

theorem downwardPath_nodes (h : t.FirstAbove (· = start) k last start) :
    (t.walk (k + 1) last).reverse.map t.pathNode =
      t.pathNode start :: ((t.walk k last).tail.reverse.map t.pathNode ++ [t.pathNode last]) := by
  rw [walk_succ h.reached, List.reverse_append, List.reverse_singleton, List.singleton_append,
    List.map_cons]
  conv_lhs => rw [← cons_tail_walk h.pos last]
  rw [List.reverse_cons, List.map_append, List.map_singleton]

theorem mem_interior_nodes {n : PathNode} :
    n ∈ (t.walk k last).tail.reverse.map t.pathNode ↔
      ∃ j x, 0 < j ∧ j < k ∧ t.ancestor? j last = some x ∧ t.pathNode x = n := by
  simp only [List.mem_map, List.mem_reverse, mem_tail_walk]
  constructor
  · intro h
    obtain ⟨x, ⟨j, hj, hjk, hx⟩, rfl⟩ := h
    exact ⟨j, x, hj, hjk, hx, rfl⟩
  · intro h
    obtain ⟨j, x, hj, hjk, hx, rfl⟩ := h
    exact ⟨x, ⟨j, hj, hjk, hx⟩, rfl⟩

section Fits

variable (hfirst : t.FirstAbove (· = start) k last start)
  (h : plan.Fits placeholder (t.pathNode start) ((t.walk k last).tail.reverse.map t.pathNode)
    (t.pathNode last))
include h

theorem passwordOf_of_fits {j : Nat} (hj : 0 < j) (hjk : j < k)
    (hx : t.ancestor? j last = some x) : t.passwordOf x = some placeholder :=
  holdsPlaceholder_pathNode.mp (h.interior _ (mem_interior_nodes.mpr ⟨j, x, hj, hjk, hx, rfl⟩))

theorem some_target_of_fits : 1 < k ∨ t.passwordOf last = some placeholder := by
  rcases h.some_target with hne | hl
  · obtain ⟨n, hn⟩ := List.exists_mem_of_ne_nil _ hne
    obtain ⟨j, -, hj, hjk, -⟩ := mem_interior_nodes.mp hn
    exact .inl (by omega)
  · exact .inr (holdsPlaceholder_pathNode.mp hl)

theorem emptyEnd_of_fits : plan.emptyEnd = some x ↔
    x = last ∧ t.passwordOf last ≠ some placeholder ∧ t.stateOf placeholder last = .empty := by
  rw [h.emptyEnd, state_pathNode]
  by_cases hl : t.passwordOf last = some placeholder
  · simp [holdsPlaceholder_pathNode.mpr hl, hl]
  · have hl' := mt holdsPlaceholder_pathNode.mp hl
    by_cases he : t.stateOf placeholder last = .empty
    · simp only [hl', he, hl, if_true, Bool.false_eq_true, if_false, Option.some.injEq,
        ne_eq, not_false_iff, and_true]
      exact eq_comm
    · simp [hl', he]

include hfirst

theorem mem_targets_of_fits : x ∈ plan.targets ↔
    ∃ j, j < k ∧ t.ancestor? j last = some x ∧ t.passwordOf x = some placeholder := by
  rw [h.targets, List.mem_append, List.mem_map]
  constructor
  · intro hx
    rcases hx with ⟨n, hn, rfl⟩ | hx
    · obtain ⟨j, y, hj, hjk, hy, rfl⟩ := mem_interior_nodes.mp hn
      exact ⟨j, hjk, hy, passwordOf_of_fits h hj hjk hy⟩
    · split at hx
      next hl =>
        rw [List.mem_singleton.mp hx]
        exact ⟨0, hfirst.pos, rfl, holdsPlaceholder_pathNode.mp hl⟩
      next => cases hx
  · intro hx
    obtain ⟨j, hjk, hx, hp⟩ := hx
    rcases Nat.eq_zero_or_pos j with rfl | hj
    · cases hx
      refine .inr ?_
      rw [if_pos (holdsPlaceholder_pathNode.mpr hp)]
      exact List.mem_singleton.mpr rfl
    · exact .inl ⟨t.pathNode x, mem_interior_nodes.mpr ⟨j, x, hj, hjk, hx, rfl⟩, rfl⟩

end Fits

/-- A plan for the path down to `last` has been made over an open chain. -/
theorem planned_of_plan (hpath : t.downwardPath? start last maxDepth = some path)
    (hplan : planRekey path placeholder = .ok plan) :
    ∃ k, k ≤ maxDepth.toNat ∧ t.Planned placeholder start last k plan := by
  obtain ⟨hp, k, hk, hfirst, rfl⟩ := downwardPath?_eq_some_iff.mp hpath
  rw [downwardPath_nodes hfirst] at hplan
  have hfits := planRekey_cons_eq_ok_iff.mp hplan
  have hfull := hfits.full
  have hcredentials := hfits.credentials
  rw [state_pathNode] at hfull
  rw [credentials_pathNode] at hcredentials
  exact ⟨k, hk, ⟨hp, hfirst, hfull, fun j x hj hjk => passwordOf_of_fits hfits hj hjk,
    some_target_of_fits hfits⟩, hcredentials, fun x => mem_targets_of_fits hfirst hfits,
    fun x => emptyEnd_of_fits hfits⟩

/-- The targets of a plan are listed once each. -/
theorem nodup_targets (hpath : t.downwardPath? start last maxDepth = some path)
    (hplan : planRekey path placeholder = .ok plan) : plan.targets.Nodup := by
  obtain ⟨-, k, -, hfirst, rfl⟩ := downwardPath?_eq_some_iff.mp hpath
  rw [downwardPath_nodes hfirst] at hplan
  have hfits := planRekey_cons_eq_ok_iff.mp hplan
  have hids : ((t.walk k last).tail.reverse.map t.pathNode).map (·.id) =
      (t.walk k last).tail.reverse := by
    rw [List.map_map]
    exact List.map_id _
  have hwalk : (last :: (t.walk k last).tail).Nodup := by
    rw [cons_tail_walk hfirst.pos]
    exact hfirst.nodup_walk
  obtain ⟨hnot, htail⟩ := List.nodup_cons.mp hwalk
  rw [hfits.targets, hids]
  split
  · refine List.Nodup.append (List.nodup_reverse.mpr htail) (List.nodup_singleton _) ?_
    intro x hx hlast
    rw [List.mem_singleton] at hlast
    rw [hlast] at hx
    exact hnot (List.mem_reverse.mp hx)
  · rw [List.append_nil]
    exact List.nodup_reverse.mpr htail

/-- The end of an open chain within reach gets a plan. -/
theorem OpenChain.exists_plan (h : t.OpenChain placeholder start last k)
    (hk : k ≤ maxDepth.toNat) : ∃ path plan, t.downwardPath? start last maxDepth = some path ∧
      planRekey path placeholder = .ok plan := by
  obtain ⟨hp, hfirst, hfull, hinterior, hsome⟩ := h
  obtain ⟨c, hc, -⟩ := stateOf_full_iff.mp hfull
  have hmid : ∀ n ∈ (t.walk k last).tail.reverse.map t.pathNode,
      n.holdsPlaceholder placeholder = true := by
    intro n hn
    obtain ⟨j, x, hj, hjk, hx, rfl⟩ := mem_interior_nodes.mp hn
    exact holdsPlaceholder_pathNode.mpr (hinterior j x hj hjk hx)
  have htarget : (t.walk k last).tail.reverse.map t.pathNode ≠ [] ∨
      (t.pathNode last).holdsPlaceholder placeholder = true := by
    rcases hsome with hk1 | hl
    · obtain ⟨x, hx⟩ := ancestor?_of_le hfirst.reached (Nat.le_of_lt hk1)
      have hmem := mem_interior_nodes.mpr ⟨1, x, Nat.one_pos, hk1, hx, rfl⟩
      exact .inl (List.ne_nil_of_mem hmem)
    · exact .inr (holdsPlaceholder_pathNode.mpr hl)
  have hstart : (t.pathNode start).state placeholder = .full := by rw [state_pathNode, hfull]
  have hcredentials : (t.pathNode start).credentials? = some c := by rw [credentials_pathNode, hc]
  obtain ⟨plan, hfits⟩ := RekeyPlan.exists_fits hstart hcredentials hmid htarget
  exact ⟨_, plan, downwardPath?_eq_some_iff.mpr ⟨hp, k, hk, hfirst, rfl⟩,
    planRekey_eq_ok_iff.mpr ⟨_, _, _, downwardPath_nodes hfirst, hfits⟩⟩

/-- The start of an open chain is the nearest full ancestor of everyone on the way down. -/
theorem OpenChain.nearest {j : Nat} (h : t.OpenChain placeholder start last k) (hjk : j < k)
    (hx : t.ancestor? j last = some x) : t.NearestFull placeholder (k - j) x start := by
  refine FirstAbove.of_passed (k := k) ⟨h.first.pos, h.first.reached, h.full, ?_⟩ hx hjk
  intro i b hi hik hb
  exact not_full_of_password (h.interior i b hi hik hb)

namespace Planned

variable (h : t.Planned placeholder start last k plan)
include h

/-- Everyone on the way inherits the planned login. -/
theorem inherits {j : Nat} (hjk : j < k) (hx : t.ancestor? j last = some x) :
    t.Inherits placeholder x plan.credentials :=
  ⟨k - j, start, h.toOpenChain.nearest hjk hx, h.credentials⟩

theorem inherits_of_target (hx : x ∈ plan.targets) :
    t.Inherits placeholder x plan.credentials := by
  obtain ⟨j, hjk, hj, -⟩ := (h.mem_targets x).mp hx
  exact h.inherits hjk hj

theorem inherits_of_emptyEnd (hx : plan.emptyEnd = some x) :
    t.Inherits placeholder x plan.credentials := by
  obtain ⟨rfl, -, -⟩ := (h.emptyEnd x).mp hx
  exact h.inherits h.first.pos rfl

theorem passwordOf_target (hx : x ∈ plan.targets) : t.passwordOf x = some placeholder := by
  obtain ⟨-, -, -, hp⟩ := (h.mem_targets x).mp hx
  exact hp

theorem not_target_of_emptyEnd (hx : plan.emptyEnd = some x) : x ∉ plan.targets := by
  obtain ⟨rfl, hp, -⟩ := (h.emptyEnd x).mp hx
  exact fun hmem => hp (h.passwordOf_target hmem)

theorem targets_ne_nil : plan.targets ≠ [] := by
  have htarget : ∃ x, x ∈ plan.targets := by
    rcases h.some_target with hk | hp
    · obtain ⟨x, hx⟩ := ancestor?_of_le h.first.reached (Nat.le_of_lt hk)
      exact ⟨x, (h.mem_targets x).mpr ⟨1, hk, hx, h.interior 1 x Nat.one_pos hk hx⟩⟩
    · exact ⟨last, (h.mem_targets last).mpr ⟨0, h.first.pos, rfl, hp⟩⟩
  obtain ⟨x, hx⟩ := htarget
  exact List.ne_nil_of_mem hx

end Planned

end Tree

end Downline
