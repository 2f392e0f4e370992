import Downline.Proofs.Logins
import Downline.Store.Chains
import Mathlib.Data.List.Basic

/-! What discovery finds. The search over a stack of people finds the ends of exactly the chains that lead
down from them, in any graph of child slots. -/

namespace Downline.Tree

variable {t : Tree} {placeholder : String} {maxDepth depth : UInt32} {id start last x : PersonId}

/-- The search that visits `id` at this depth comes to the chain end `last`. -/
inductive Leads (t : Tree) (placeholder : String) (maxDepth : UInt32) :
    PersonId → UInt32 → PersonId → Prop where
  | ends {id : PersonId} {depth : UInt32} (hv : t.visit placeholder maxDepth id depth = .ends) :
      Leads t placeholder maxDepth id depth id
  | goesOn {id c last : PersonId} {depth : UInt32} {children : List PersonId}
      (hv : t.visit placeholder maxDepth id depth = .goesOn children) (hc : c ∈ children)
      (hl : Leads t placeholder maxDepth c (depth + 1) last) :
      Leads t placeholder maxDepth id depth last

/-! ### Visits -/

theorem visit_eq_ends_iff : t.visit placeholder maxDepth id depth = .ends ↔
    depth ≤ maxDepth ∧ ((t.passwordOf id = some placeholder ∧ t.childrenOf id = []) ∨
      (t.passwordOf id ≠ some placeholder ∧ 1 < depth)) := by
  unfold visit
  by_cases hd : maxDepth < depth
  · simp [hd, UInt32.not_le.mpr hd]
  · have hle : depth ≤ maxDepth := UInt32.not_lt.mp hd
    by_cases hp : t.passwordOf id = some placeholder
    · cases hc : t.childrenOf id <;> simp [hd, hle, hp]
    · by_cases h1 : 1 < depth <;> simp [hd, hle, hp, h1]

theorem visit_eq_goesOn_iff {children : List PersonId} :
    t.visit placeholder maxDepth id depth = .goesOn children ↔
      depth ≤ maxDepth ∧ t.passwordOf id = some placeholder ∧ t.childrenOf id = children ∧
        children ≠ [] := by
  unfold visit
  by_cases hd : maxDepth < depth
  · simp [hd, UInt32.not_le.mpr hd]
  · have hle : depth ≤ maxDepth := UInt32.not_lt.mp hd
    by_cases hp : t.passwordOf id = some placeholder
    · cases hc : t.childrenOf id with
      | nil => simp [hd, hle, hp]
      | cons c rest =>
        simp only [hd, hle, hp, if_true, if_false, Visit.goesOn.injEq, true_and]
        exact ⟨fun he => ⟨he, he ▸ List.cons_ne_nil c rest⟩, fun h => h.1⟩
    · by_cases h1 : 1 < depth <;> simp [hd, hp, h1]

theorem leads_of_pass (h : t.visit placeholder maxDepth id depth = .pass) :
    ¬ t.Leads placeholder maxDepth id depth last := by
  intro hl
  cases hl with
  | ends hv => rw [h] at hv; cases hv
  | goesOn hv => rw [h] at hv; cases hv

theorem leads_of_ends (h : t.visit placeholder maxDepth id depth = .ends) :
    t.Leads placeholder maxDepth id depth last ↔ last = id := by
  constructor
  · intro hl
    cases hl with
    | ends => rfl
    | goesOn hv => rw [h] at hv; cases hv
  · rintro rfl
    exact .ends h

theorem leads_of_goesOn {children : List PersonId}
    (h : t.visit placeholder maxDepth id depth = .goesOn children) :
    t.Leads placeholder maxDepth id depth last ↔
      ∃ c ∈ children, t.Leads placeholder maxDepth c (depth + 1) last := by
  constructor
  · intro hl
    cases hl with
    | ends hv => rw [h] at hv; cases hv
    | goesOn hv hc hl =>
      rw [h] at hv
      cases hv
      exact ⟨_, hc, hl⟩
  · intro hh
    obtain ⟨c, hc, hl⟩ := hh
    exact .goesOn h hc hl

/-- No depth lies beyond the last one that a word can hold. -/
theorem eq_last_of_le (h : 4294967295 ≤ depth) : depth = 4294967295 := by
  have hmax := depth.toNat_lt
  have hlast : (4294967295 : UInt32).toNat ≤ depth.toNat := UInt32.le_iff_toNat_le.mp h
  exact UInt32.toNat_inj.mp (Nat.le_antisymm (Nat.le_of_lt_succ hmax) hlast)

/-! ### The search -/

section Search

variable {rest : List (PersonId × UInt32)} {found : List PersonId}

theorem chainEnds_nil : t.chainEnds placeholder maxDepth [] found = .ok found := by
  rw [chainEnds]

theorem chainEnds_of_pass (h : t.visit placeholder maxDepth id depth = .pass) :
    t.chainEnds placeholder maxDepth ((id, depth) :: rest) found =
      t.chainEnds placeholder maxDepth rest found := by
  rw [chainEnds]
  split <;> simp_all

theorem chainEnds_of_ends (h : t.visit placeholder maxDepth id depth = .ends) :
    t.chainEnds placeholder maxDepth ((id, depth) :: rest) found =
      t.chainEnds placeholder maxDepth rest (id :: found) := by
  rw [chainEnds]
  split <;> simp_all

theorem chainEnds_of_goesOn {children : List PersonId}
    (h : t.visit placeholder maxDepth id depth = .goesOn children) (hd : depth ≠ 4294967295) :
    t.chainEnds placeholder maxDepth ((id, depth) :: rest) found =
      t.chainEnds placeholder maxDepth (children.map (·, depth + 1) ++ rest) found := by
  rw [chainEnds]
  split <;> simp_all

end Search

/-- A search that is not broken off finds what its stack leads to. -/
theorem mem_chainEnds {stack : List (PersonId × UInt32)} {found ends : List PersonId}
    (h : t.chainEnds placeholder maxDepth stack found = .ok ends) :
    last ∈ ends ↔ last ∈ found ∨ ∃ v ∈ stack, t.Leads placeholder maxDepth v.1 v.2 last := by
  fun_induction chainEnds t placeholder maxDepth stack found with
  | case1 found =>
    cases h
    simp
  | case2 id depth rest found hv ih =>
    rw [ih h, List.exists_mem_cons_iff]
    simp [leads_of_pass hv]
  | case3 id depth rest found hv ih =>
    rw [ih h, List.exists_mem_cons_iff, leads_of_ends hv, List.mem_cons]
    tauto
  | case4 => cases h
  | case5 id depth rest found children hv hd ih =>
    rw [ih h, List.exists_mem_cons_iff, leads_of_goesOn hv]
    simp only [List.mem_append, List.mem_map, or_and_right, exists_or]
    grind

/-- If nothing goes on at the last depth that a word can hold, the search ends in good order. -/
theorem exists_chainEnds {P : PersonId → UInt32 → Prop} (stack : List (PersonId × UInt32))
    (found : List PersonId)
    (hgo : ∀ id depth children, P id depth →
      t.visit placeholder maxDepth id depth = .goesOn children →
        depth ≠ 4294967295 ∧ ∀ c ∈ children, P c (depth + 1))
    (hstack : ∀ v ∈ stack, P v.1 v.2) :
    ∃ ends, t.chainEnds placeholder maxDepth stack found = .ok ends := by
  fun_induction chainEnds t placeholder maxDepth stack found with
  | case1 found => exact ⟨found, rfl⟩
  | case2 id depth rest found hv ih => exact ih fun v hv => hstack v (List.mem_cons_of_mem _ hv)
  | case3 id depth rest found hv ih => exact ih fun v hv => hstack v (List.mem_cons_of_mem _ hv)
  | case4 id rest found children hv =>
    exact absurd rfl (hgo id _ children (hstack _ List.mem_cons_self) hv).1
  | case5 id depth rest found children hv hd ih =>
    refine ih fun v hvm => ?_
    rcases List.mem_append.mp hvm with hc | hr
    · obtain ⟨c, hchild, rfl⟩ := List.mem_map.mp hc
      exact (hgo id depth children (hstack _ List.mem_cons_self) hv).2 c hchild
    · exact hstack v (List.mem_cons_of_mem _ hr)

/-- A search breaks off only over its depth counter, and only if it may go to the last depth that a word
can hold. -/
theorem chainEnds_eq_error {stack : List (PersonId × UInt32)} {found : List PersonId}
    {reason : Panic} (h : t.chainEnds placeholder maxDepth stack found = .error reason) :
    reason = .depthOverflow ∧ maxDepth = 4294967295 := by
  fun_induction chainEnds t placeholder maxDepth stack found with
  | case1 => cases h
  | case2 id depth rest found hv ih => exact ih h
  | case3 id depth rest found hv ih => exact ih h
  | case4 id rest found children hv =>
    cases h
    exact ⟨rfl, eq_last_of_le (visit_eq_goesOn_iff.mp hv).1⟩
  | case5 id depth rest found children hv hd ih => exact ih h

/-! ### All candidates -/

section MapM

variable {α β ε : Type} {f : α → Except ε β} {l : List α} {results : List β} {x : α}

theorem mapM_cons_ok (h : (x :: l).mapM f = .ok results) :
    ∃ y rest, f x = .ok y ∧ l.mapM f = .ok rest ∧ results = y :: rest := by
  rw [List.mapM_cons] at h
  cases hx : f x with
  | error e => rw [hx] at h; cases h
  | ok y =>
    rw [hx] at h
    cases hl : l.mapM f with
    | error e => rw [hl] at h; cases h
    | ok rest =>
      rw [hl] at h
      cases h
      exact ⟨y, rest, rfl, rfl, rfl⟩

theorem mem_of_mapM_ok (h : l.mapM f = .ok results) {y : β} :
    y ∈ results ↔ ∃ x ∈ l, f x = .ok y := by
  induction l generalizing results with
  | nil =>
    cases h
    simp
  | cons x l ih =>
    obtain ⟨y', rest, hx, hl, rfl⟩ := mapM_cons_ok h
    rw [List.mem_cons, ih hl, List.exists_mem_cons_iff, hx, Except.ok.injEq, eq_comm]

theorem pairwise_of_mapM_ok {R : α → α → Prop} {Q : β → β → Prop} (h : l.mapM f = .ok results)
    (hl : l.Pairwise R) (hRQ : ∀ x x' y y', R x x' → f x = .ok y → f x' = .ok y' → Q y y') :
    results.Pairwise Q := by
  induction l generalizing results with
  | nil =>
    cases h
    exact List.Pairwise.nil
  | cons x l ih =>
    obtain ⟨y, rest, hx, hrest, rfl⟩ := mapM_cons_ok h
    obtain ⟨hR, hl⟩ := List.pairwise_cons.mp hl
    refine List.pairwise_cons.mpr ⟨fun y' hy' => ?_, ih hrest hl⟩
    obtain ⟨x', hx', hy'⟩ := (mem_of_mapM_ok hrest).mp hy'
    exact hRQ x x' y y' (hR x' hx') hx hy'

theorem exists_of_mapM_ok (h : l.mapM f = .ok results) (hx : x ∈ l) : ∃ y, f x = .ok y := by
  induction l generalizing results with
  | nil => cases hx
  | cons x' l ih =>
    obtain ⟨y, rest, hx', hl, -⟩ := mapM_cons_ok h
    rcases List.mem_cons.mp hx with rfl | hx
    · exact ⟨y, hx'⟩
    · exact ih hl hx

theorem exists_mapM_ok (h : ∀ x ∈ l, ∃ y, f x = .ok y) : ∃ results, l.mapM f = .ok results := by
  induction l with
  | nil => exact ⟨[], rfl⟩
  | cons x l ih =>
    obtain ⟨y, hy⟩ := h x List.mem_cons_self
    obtain ⟨rest, hrest⟩ := ih fun x hx => h x (List.mem_cons_of_mem _ hx)
    exact ⟨y :: rest, by rw [List.mapM_cons, hy, hrest]; rfl⟩

theorem exists_of_mapM_error {e : ε} (h : l.mapM f = .error e) : ∃ x ∈ l, f x = .error e := by
  induction l with
  | nil => cases h
  | cons x l ih =>
    rw [List.mapM_cons] at h
    cases hx : f x with
    | error e' =>
      rw [hx] at h
      cases h
      exact ⟨x, List.mem_cons_self, hx⟩
    | ok y =>
      rw [hx] at h
      cases hl : l.mapM f with
      | error e' =>
        rw [hl] at h
        cases h
        obtain ⟨x', hmem, hx'⟩ := ih hl
        exact ⟨x', List.mem_cons_of_mem _ hmem, hx'⟩
      | ok rest =>
        rw [hl] at h
        cases h

end MapM

theorem mem_starts : start ∈ t.people.keys.filter (fun id => t.stateOf placeholder id == .full) ↔
    t.stateOf placeholder start = .full := by
  rw [List.mem_filter, beq_iff_eq, Std.TreeMap.mem_keys]
  refine and_iff_right_of_imp fun h => ?_
  obtain ⟨r, hr⟩ := Option.isSome_iff_exists.mp (isSome_of_full h)
  exact Std.TreeMap.mem_iff_isSome_getElem?.mpr (Option.isSome_iff_exists.mpr ⟨r, hr⟩)

theorem exists_chainEnds_of_below {candidates : List ChainCandidate}
    (h : t.candidatesBelow placeholder maxDepth start = .ok candidates) :
    ∃ ends, t.chainEnds placeholder maxDepth ((t.childrenOf start).map (·, 1)) [] = .ok ends ∧
      candidates = ends.map fun last => { start, last } := by
  unfold candidatesBelow at h
  cases hs : t.chainEnds placeholder maxDepth ((t.childrenOf start).map (·, 1)) [] with
  | error e => rw [hs] at h; cases h
  | ok ends =>
    rw [hs] at h
    cases h
    exact ⟨ends, rfl, rfl⟩

theorem mem_candidatesBelow {candidates : List ChainCandidate} {c : ChainCandidate}
    (h : t.candidatesBelow placeholder maxDepth start = .ok candidates) :
    c ∈ candidates ↔
      c.start = start ∧ ∃ x ∈ t.childrenOf start, t.Leads placeholder maxDepth x 1 c.last := by
  obtain ⟨ends, hs, rfl⟩ := exists_chainEnds_of_below h
  obtain ⟨cstart, clast⟩ := c
  simp only [List.mem_map, ChainCandidate.mk.injEq, mem_chainEnds hs, List.not_mem_nil, false_or]
  constructor
  · intro hh
    obtain ⟨last, ⟨v, ⟨x, hx, rfl⟩, hl⟩, rfl, rfl⟩ := hh
    exact ⟨rfl, x, hx, hl⟩
  · intro hh
    obtain ⟨rfl, x, hx, hl⟩ := hh
    exact ⟨clast, ⟨(x, 1), ⟨x, hx, rfl⟩, hl⟩, rfl, rfl⟩

/-- The candidates are those below each full person, put in order. -/
theorem exists_mapM_of_candidates {candidates : List ChainCandidate}
    (h : t.rekeyCandidates placeholder maxDepth = .ok candidates) :
    ∃ found, (t.people.keys.filter fun id => t.stateOf placeholder id == .full).mapM
        (t.candidatesBelow placeholder maxDepth) = .ok found ∧
      candidates = found.flatten.mergeSort fun a b => (compare a b).isLE := by
  unfold rekeyCandidates at h
  simp only at h
  cases hm : List.mapM (t.candidatesBelow placeholder maxDepth)
      (t.people.keys.filter fun id => t.stateOf placeholder id == .full) with
  | error e => rw [hm] at h; cases h
  | ok found =>
    rw [hm] at h
    cases h
    exact ⟨found, rfl, rfl⟩

/-- The candidates are the full people with the ends of the chains that lead down from their children. -/
theorem mem_rekeyCandidates {candidates : List ChainCandidate} {c : ChainCandidate}
    (h : t.rekeyCandidates placeholder maxDepth = .ok candidates) :
    c ∈ candidates ↔ t.stateOf placeholder c.start = .full ∧
      ∃ x ∈ t.childrenOf c.start, t.Leads placeholder maxDepth x 1 c.last := by
  obtain ⟨found, hm, rfl⟩ := exists_mapM_of_candidates h
  rw [List.mem_mergeSort, List.mem_flatten]
  constructor
  · intro hh
    obtain ⟨below, hbelow, hc⟩ := hh
    obtain ⟨start, hstart, hs⟩ := (mem_of_mapM_ok hm).mp hbelow
    obtain ⟨rfl, hx⟩ := (mem_candidatesBelow hs).mp hc
    exact ⟨mem_starts.mp hstart, hx⟩
  · intro hh
    obtain ⟨hfull, hx⟩ := hh
    -- The run over all starts has succeeded, so the search below this one has.
    obtain ⟨below, hs⟩ := exists_of_mapM_ok hm (mem_starts.mpr hfull)
    exact ⟨below, (mem_of_mapM_ok hm).mpr ⟨_, mem_starts.mpr hfull, hs⟩,
      (mem_candidatesBelow hs).mpr ⟨rfl, hx⟩⟩

/-- If nothing below a full person goes on at the last depth that a word can hold, discovery
succeeds. -/
theorem exists_rekeyCandidates {P : PersonId → PersonId → UInt32 → Prop}
    (hgo : ∀ start id depth children, P start id depth →
      t.visit placeholder maxDepth id depth = .goesOn children →
        depth ≠ 4294967295 ∧ ∀ c ∈ children, P start c (depth + 1))
    (hstart : ∀ start, t.stateOf placeholder start = .full →
      ∀ x ∈ t.childrenOf start, P start x 1) :
    ∃ candidates, t.rekeyCandidates placeholder maxDepth = .ok candidates := by
  have hbelow : ∀ start ∈ t.people.keys.filter (fun id => t.stateOf placeholder id == .full),
      ∃ below, t.candidatesBelow placeholder maxDepth start = .ok below := by
    intro start hs
    have hstack : ∀ v ∈ (t.childrenOf start).map (·, (1 : UInt32)), P start v.1 v.2 := by
      intro v hv
      obtain ⟨x, hx, rfl⟩ := List.mem_map.mp hv
      exact hstart start (mem_starts.mp hs) x hx
    obtain ⟨ends, hends⟩ := exists_chainEnds _ [] (hgo start) hstack
    exact ⟨_, by rw [candidatesBelow, hends]; rfl⟩
  obtain ⟨found, hfound⟩ := exists_mapM_ok hbelow
  exact ⟨_, by rw [rekeyCandidates, hfound]; rfl⟩

/-- If discovery breaks down, so does the search below some full person. -/
theorem exists_chainEnds_of_error {reason : Panic}
    (h : t.rekeyCandidates placeholder maxDepth = .error reason) :
    ∃ start, t.stateOf placeholder start = .full ∧
      t.chainEnds placeholder maxDepth ((t.childrenOf start).map (·, 1)) [] = .error reason := by
  unfold rekeyCandidates at h
  simp only at h
  cases hm : List.mapM (t.candidatesBelow placeholder maxDepth)
      (t.people.keys.filter fun id => t.stateOf placeholder id == .full) with
  | ok found =>
    rw [hm] at h
    cases h
  | error reason' =>
    rw [hm] at h
    cases h
    obtain ⟨start, hstart, hbelow⟩ := exists_of_mapM_error hm
    unfold candidatesBelow at hbelow
    cases hs : t.chainEnds placeholder maxDepth ((t.childrenOf start).map (·, 1)) [] with
    | ok ends =>
      rw [hs] at hbelow
      cases hbelow
    | error reason'' =>
      rw [hs] at hbelow
      cases hbelow
      exact ⟨start, mem_starts.mp hstart, hs⟩

/-- Discovery breaks down only over its depth counter, and only if it may go to the last depth that a word
can hold. -/
theorem rekeyCandidates_eq_error {reason : Panic}
    (h : t.rekeyCandidates placeholder maxDepth = .error reason) :
    reason = .depthOverflow ∧ maxDepth = 4294967295 := by
  obtain ⟨start, -, hs⟩ := exists_chainEnds_of_error h
  exact chainEnds_eq_error hs

/-- Below the last depth that a word can hold, discovery succeeds in every graph of child slots. -/
theorem exists_candidates (t : Tree) (placeholder : String) (hd : maxDepth ≠ 4294967295) :
    ∃ candidates, t.rekeyCandidates placeholder maxDepth = .ok candidates := by
  cases hc : t.rekeyCandidates placeholder maxDepth with
  | ok candidates => exact ⟨candidates, rfl⟩
  | error reason => exact absurd (rekeyCandidates_eq_error hc).2 hd

end Downline.Tree
