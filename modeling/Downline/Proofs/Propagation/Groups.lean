import Downline.Propagation
import Downline.Store.Tree.Lemmas
import Mathlib.Data.List.Basic
import Mathlib.Tactic.Common

/-! How the paths of a batch are grouped by terminator, and how a list is cut into batches. The grouping
is described for arbitrary paths, also for those that no tree could give. -/

namespace Downline

/-! ### Batches -/

theorem flatten_batchesOf {α : Type} (n : Nat) (l : List α) : (batchesOf n l).flatten = l := by
  fun_induction batchesOf n l with
  | case1 => rfl
  | case2 x rest ih =>
    rw [List.flatten_cons, ih, List.cons_append, List.take_append_drop]

theorem ne_nil_of_mem_batchesOf {α : Type} {n : Nat} {l batch : List α}
    (h : batch ∈ batchesOf n l) : batch ≠ [] := by
  fun_induction batchesOf n l with
  | case1 => cases h
  | case2 x rest ih =>
    rcases List.mem_cons.mp h with rfl | h
    · exact List.cons_ne_nil x _
    · exact ih h

theorem length_batchesOf_le {α : Type} (n : Nat) (l : List α) : (batchesOf n l).length ≤ l.length := by
  fun_induction batchesOf n l with
  | case1 => exact Nat.le_refl 0
  | case2 x rest ih =>
    rw [List.length_drop] at ih
    simp only [List.length_cons]
    omega

theorem length_batchesOf {α : Type} {n : Nat} (hn : 0 < n) (l : List α) :
    (batchesOf n l).length = (l.length + n - 1) / n := by
  fun_induction batchesOf n l with
  | case1 =>
    have hlt : n - 1 < n := by omega
    simp [Nat.div_eq_of_lt hlt]
  | case2 x rest ih =>
    rw [List.length_cons, ih, List.length_drop, List.length_cons]
    have hr : rest.length + 1 + n - 1 = rest.length + n := by omega
    rw [hr, Nat.add_div_right rest.length hn, Nat.add_right_cancel_iff]
    rcases Nat.lt_or_ge rest.length (n - 1) with hlt | hge
    · -- This batch takes all that is left.
      have h0 : rest.length - (n - 1) + n - 1 < n := by omega
      rw [Nat.div_eq_of_lt h0, Nat.div_eq_of_lt (by omega)]
    · have h1 : rest.length - (n - 1) + n - 1 = rest.length := by omega
      rw [h1]

namespace Propagation

/-! ### Groups -/

/-- The login that a terminator passes on. -/
def passedOn (groups : Std.TreeMap PersonId Inheritance) (terminator : PersonId) :
    Option Credentials :=
  (groups[terminator]?).map (·.credentials)

/-- Whether a person takes over the login of a terminator. -/
def IsTarget (groups : Std.TreeMap PersonId Inheritance) (terminator x : PersonId) : Prop :=
  ∃ g, groups[terminator]? = some g ∧ x ∈ g.targets

/-- Whether a path makes a person take over the login of a terminator. -/
def Contributes (full : IdSet) (path : UpwardPath) (terminator x : PersonId) : Prop :=
  path.terminator = terminator ∧ x ∈ path.walked ∧ x ∉ full

variable {full : IdSet} {groups : Std.TreeMap PersonId Inheritance} {terminator x : PersonId}

theorem mem_not_full {ids : List PersonId} :
    x ∈ ids.filter (fun id => !full.contains id) ↔ x ∈ ids ∧ x ∉ full := by
  rw [List.mem_filter, Bool.not_eq_true', ← Bool.not_eq_true, Std.TreeSet.contains_iff_mem]

theorem passedOn_inherit (full : IdSet) (groups : Std.TreeMap PersonId Inheritance)
    (path : UpwardPath) (terminator : PersonId) :
    passedOn (inherit full groups path) terminator =
      if path.terminator = terminator then
        (passedOn groups terminator).or (some path.credentials)
      else passedOn groups terminator := by
  unfold passedOn inherit
  simp only [Std.TreeMap.getElem?_insert, Std.LawfulEqOrd.compare_eq_iff_eq]
  split
  next h =>
    subst h
    cases groups[path.terminator]? <;> rfl
  next => rfl

theorem isTarget_inherit (full : IdSet) (groups : Std.TreeMap PersonId Inheritance)
    (path : UpwardPath) (terminator x : PersonId) :
    IsTarget (inherit full groups path) terminator x ↔
      IsTarget groups terminator x ∨ Contributes full path terminator x := by
  unfold IsTarget inherit Contributes
  simp only [Std.TreeMap.getElem?_insert, Std.LawfulEqOrd.compare_eq_iff_eq]
  by_cases h : path.terminator = terminator
  · subst h
    simp only [if_true, Option.some.injEq, true_and]
    constructor
    · intro hh
      obtain ⟨g, rfl, hx⟩ := hh
      rcases (IdSet.mem_foldl_insert _ _ x).mp hx with hx | hx
      · refine .inl ?_
        cases hg : groups[path.terminator]? with
        | none =>
          rw [hg] at hx
          exact absurd hx Std.TreeSet.not_mem_emptyc
        | some g => exact ⟨g, rfl, by rwa [hg] at hx⟩
      · exact .inr (mem_not_full.mp hx)
    · intro hx
      refine ⟨_, rfl, (IdSet.mem_foldl_insert _ _ x).mpr ?_⟩
      rcases hx with ⟨g, hg, hx⟩ | hx
      · exact .inl (by rw [hg]; exact hx)
      · exact .inr (mem_not_full.mpr hx)
  · simp [h]

/-- The first path of a terminator decides what it passes on. -/
theorem passedOn_inheritances (full : IdSet) (paths : List UpwardPath) (terminator : PersonId) :
    passedOn (inheritances full paths) terminator =
      (paths.find? (·.terminator = terminator)).map (·.credentials) := by
  -- Groups that are there already come first.
  suffices h : ∀ groups, passedOn (paths.foldl (inherit full) groups) terminator =
      (passedOn groups terminator).or
        ((paths.find? (·.terminator = terminator)).map (·.credentials)) from h ∅
  induction paths with
  | nil => simp
  | cons path rest ih =>
    intro groups
    rw [List.foldl_cons, ih, passedOn_inherit]
    by_cases h : path.terminator = terminator
    · simp [h]
    · simp [h]

theorem isTarget_inheritances (full : IdSet) (paths : List UpwardPath) (terminator x : PersonId) :
    IsTarget (inheritances full paths) terminator x ↔
      ∃ path ∈ paths, Contributes full path terminator x := by
  suffices h : ∀ groups, IsTarget (paths.foldl (inherit full) groups) terminator x ↔
      IsTarget groups terminator x ∨ ∃ path ∈ paths, Contributes full path terminator x by
    refine (h ∅).trans (or_iff_right ?_)
    intro hh
    obtain ⟨g, hg, -⟩ := hh
    rw [Std.TreeMap.getElem?_emptyc] at hg
    cases hg
  induction paths with
  | nil => simp
  | cons path rest ih =>
    intro groups
    rw [List.foldl_cons, ih, isTarget_inherit, or_assoc, List.exists_mem_cons_iff]

/-- What a terminator passes on stands on one of its paths. -/
theorem exists_path_of_inheritance {paths : List UpwardPath} {g : Inheritance}
    (hg : (inheritances full paths)[terminator]? = some g) :
    ∃ path ∈ paths, path.terminator = terminator ∧ path.credentials = g.credentials := by
  have hpass := passedOn_inheritances full paths terminator
  rw [passedOn, hg, Option.map_some] at hpass
  obtain ⟨first, hfirst, hcred⟩ := Option.map_eq_some_iff.mp hpass.symm
  have hterm : first.terminator = terminator := by simpa using List.find?_some hfirst
  exact ⟨first, List.mem_of_find?_eq_some hfirst, hterm, hcred⟩

theorem mem_inheritances {paths : List UpwardPath} {g : Inheritance}
    (hg : g ∈ (inheritances full paths).toList.map (·.2)) :
    ∃ terminator : PersonId, (inheritances full paths)[terminator]? = some g := by
  obtain ⟨p, hp, rfl⟩ := List.mem_map.mp hg
  exact ⟨p.1, Std.TreeMap.mem_toList_iff_getElem?_eq_some.mp hp⟩

theorem mem_toList_of_isTarget {paths : List UpwardPath}
    (h : IsTarget (inheritances full paths) terminator x) :
    ∃ g ∈ (inheritances full paths).toList.map (·.2), x ∈ g.targets := by
  obtain ⟨g, hg, hx⟩ := h
  refine ⟨g, List.mem_map.mpr ⟨(terminator, g), ?_, rfl⟩, hx⟩
  exact Std.TreeMap.mem_toList_iff_getElem?_eq_some.mpr hg

end Propagation

end Downline
